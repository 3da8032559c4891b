import LineBasic.Check.Typing
import LineBasic.Proofs.Check.Numbering

/-!
# Types of checked programs

The checker goes through a program in the order of its text and knows, at each line, only the
names declared so far.  Names are never redefined, so what it found there holds in the scope of
the whole program as well, and can be relied on wherever a jump leads.

Main definitions:

- `Scope.IsGlobal`: a scope as the checker builds it.
- `Stmt.WellTyped`: the rules on types, in the scope of the whole program.
- `Stmt.declarations` and `declarations`: the symbols that statements and lines declare.
- `Stmt.Declares`: the same as a relation.

Main results:

- `putSymbol_cases`: a symbol goes behind the others or takes the place of one of its name.
- `Scope.typeOf?_eq_some_iff`: the type of a name is that of the only symbol of this name.
- `Program.scope_eq`: the scope of a checked program is the list of its declarations.
- `Program.wellTyped_of_scope`: all statements of a checked program are well typed in its scope,
  which holds what they declare.
-/

namespace LineBasic

/-! ## Symbols in order -/

/-- Either a name is new and goes behind the others, or its symbol gives way to the new one. -/
theorem putSymbol_cases (s : Symbol) (symbols : List Symbol) :
    (s.name ∉ symbols.map Symbol.name ∧ putSymbol s symbols = symbols ++ [s]) ∨
      ∃ before t behind, symbols = before ++ t :: behind ∧ t.name = s.name ∧
        putSymbol s symbols = before ++ s :: behind := by
  induction symbols with
  | nil => exact .inl ⟨List.not_mem_nil, rfl⟩
  | cons u rest ih =>
    rw [putSymbol]
    by_cases hu : u.name = s.name
    · exact .inr ⟨[], u, rest, rfl, hu, if_pos hu⟩
    · rw [if_neg hu]
      rcases ih with ⟨hnew, hput⟩ | ⟨before, t, behind, rfl, ht, hput⟩
      · refine .inl ⟨?_, by rw [hput, List.cons_append]⟩
        rw [List.map_cons, List.mem_cons, not_or]
        exact ⟨fun heq => hu heq.symm, hnew⟩
      · exact .inr ⟨u :: before, t, behind, rfl, ht, by rw [hput, List.cons_append]⟩

/-! ## Scopes as the checker builds them -/

/-- A scope of one level, whose names are in capitals and distinct and have types of values. -/
structure Scope.IsGlobal (scope : Scope) : Prop where
  enclosing_eq : scope.enclosing = []
  nodup : (scope.symbols.map Symbol.name).Nodup
  upper_eq : ∀ s ∈ scope.symbols, upper s.name = s.name
  type_ne_void : ∀ s ∈ scope.symbols, s.type ≠ .void

namespace Scope

/-- The scope the checker begins with. -/
theorem isGlobal_empty (name : String) : (Scope.empty name).IsGlobal := by
  constructor <;> simp [Scope.empty, Scope.symbols]

/-- In a scope of one level, a name is looked up among its symbols. -/
theorem IsGlobal.resolve?_eq {scope : Scope} (h : scope.IsGlobal) (x : String) :
    scope.resolve? x = scope.symbols.find? fun s => s.name == upper x := by
  simp only [resolve?, h.enclosing_eq, List.findSome?_cons, List.findSome?_nil]
  unfold Frame.find? Scope.symbols
  cases scope.frame.symbols.find? fun s => s.name == upper x <;> rfl

/-- Among symbols with distinct names, two with one name are the same. -/
theorem eq_of_name_eq {symbols : List Symbol} (h : (symbols.map Symbol.name).Nodup)
    {s t : Symbol} (hs : s ∈ symbols) (ht : t ∈ symbols) (hname : s.name = t.name) : s = t := by
  induction symbols with
  | nil => cases hs
  | cons u rest ih =>
    rcases List.nodup_cons.1 h with ⟨hnew, hrest⟩
    rcases List.mem_cons.1 hs with rfl | hsrest
    · rcases List.mem_cons.1 ht with rfl | htrest
      · rfl
      · exact absurd (hname ▸ List.mem_map_of_mem htrest) hnew
    · rcases List.mem_cons.1 ht with rfl | htrest
      · exact absurd (hname ▸ List.mem_map_of_mem hsrest) hnew
      · exact ih hrest hsrest htrest

/-- The type of a name is that of the symbol with this name in capitals. -/
theorem IsGlobal.typeOf?_eq_some_iff {scope : Scope} (h : scope.IsGlobal) {x : String}
    {type : SymbolType} :
    scope.typeOf? x = some type ↔ ⟨upper x, type⟩ ∈ scope.symbols := by
  unfold Scope.typeOf?
  rw [h.resolve?_eq, Option.map_eq_some_iff]
  constructor
  · rintro ⟨s, hfind, rfl⟩
    have hname : s.name = upper x := by simpa using List.find?_some hfind
    have hmem := List.mem_of_find?_eq_some hfind
    rw [← hname]
    exact hmem
  · intro hmem
    cases hfind : scope.symbols.find? fun s => s.name == upper x with
    | none =>
      have hnone := List.find?_eq_none.1 hfind _ hmem
      simp at hnone
    | some s =>
      have hname : s.name = upper x := by simpa using List.find?_some hfind
      have hs := eq_of_name_eq h.nodup (List.mem_of_find?_eq_some hfind) hmem hname
      exact ⟨s, rfl, by rw [hs]⟩

/-- A symbol that is not there yet goes behind all others. -/
theorem putSymbol_of_not_mem {s : Symbol} {symbols : List Symbol}
    (h : ∀ t ∈ symbols, t.name ≠ s.name) : putSymbol s symbols = symbols ++ [s] := by
  rcases putSymbol_cases s symbols with ⟨-, hput⟩ | ⟨before, t, behind, rfl, ht, -⟩
  · exact hput
  · exact absurd ht (h t (List.mem_append_right before List.mem_cons_self))

/-- A declaration adds one symbol behind the others. -/
theorem IsGlobal.declare_eq_ok {scope inner : Scope} (h : scope.IsGlobal) {type : SymbolType}
    (htype : type ≠ .void) {x : String} (hok : scope.declare type x = .ok inner) :
    inner.IsGlobal ∧ inner.symbols = scope.symbols ++ [⟨upper x, type⟩] := by
  unfold Scope.declare at hok
  split at hok
  · cases hok
  · rename_i hnone
    cases hok
    rw [h.resolve?_eq, List.find?_eq_none] at hnone
    have hnew : ∀ t ∈ scope.symbols, t.name ≠ upper x := by
      intro t ht
      simpa using hnone t ht
    have hsymbols : (scope.define x type).symbols = scope.symbols ++ [⟨upper x, type⟩] :=
      putSymbol_of_not_mem hnew
    refine ⟨⟨h.enclosing_eq, ?_, ?_, ?_⟩, hsymbols⟩
    · rw [hsymbols, List.map_append, List.nodup_append]
      refine ⟨h.nodup, by simp, ?_⟩
      intro a ha b hb
      rcases List.mem_map.1 ha with ⟨t, ht, rfl⟩
      simp only [List.map_cons, List.map_nil, List.mem_singleton] at hb
      rw [hb]
      exact hnew t ht
    · intro s hs
      rw [hsymbols, List.mem_append, List.mem_singleton] at hs
      rcases hs with hs | rfl
      · exact h.upper_eq s hs
      · exact upper_upper x
    · intro s hs
      rw [hsymbols, List.mem_append, List.mem_singleton] at hs
      rcases hs with hs | rfl
      · exact h.type_ne_void s hs
      · exact htype

/-- Declarations one after the other keep all symbols, and add one for each name. -/
theorem IsGlobal.declareAll_eq_ok {scope inner : Scope} (h : scope.IsGlobal)
    {type : SymbolType} (htype : type ≠ .void) {names : List String}
    (hok : scope.declareAll type names = .ok inner) :
    inner.IsGlobal ∧
      inner.symbols = scope.symbols ++ names.map fun x => ⟨upper x, type⟩ := by
  induction names generalizing scope with
  | nil =>
    cases hok
    exact ⟨h, by simp⟩
  | cons x rest ih =>
    rcases except_bind_eq_ok_iff.1 hok with ⟨middle, hfirst, hrest⟩
    rcases h.declare_eq_ok htype hfirst with ⟨hmiddle, hsymbols⟩
    rcases ih hmiddle hrest with ⟨hinner, hall⟩
    exact ⟨hinner, by simp [hall, hsymbols]⟩

/-- Among the symbols of a larger scope a name keeps its type. -/
theorem IsGlobal.typeOf?_mono {scope larger : Scope} (h : scope.IsGlobal)
    (hlarger : larger.IsGlobal) (hsub : scope.symbols ⊆ larger.symbols) {x : String}
    {type : SymbolType} (htype : scope.typeOf? x = some type) :
    larger.typeOf? x = some type :=
  hlarger.typeOf?_eq_some_iff.2 (hsub (h.typeOf?_eq_some_iff.1 htype))

/-- A required name has a type if it is there. -/
theorem require_eq_ok_iff {scope : Scope} {x : String} {type : SymbolType} :
    scope.require x = .ok type ↔ scope.typeOf? x = some type := by
  unfold Scope.require
  cases scope.typeOf? x <;> simp

end Scope

/-! ## Expressions -/

/-- The types of operations. -/
theorem Expr.type_binary_eq_ok_iff {scope : Scope} {op : ArithOp} {lhs rhs : Expr}
    {type : SymbolType} :
    (Expr.binary op lhs rhs).type scope = .ok type ↔
      type = .integer ∧ lhs.type scope = .ok .integer ∧ rhs.type scope = .ok .integer := by
  rw [Expr.type]
  simp only [except_bind_eq_ok_iff]
  constructor
  · rintro ⟨l, hl, r, hr, hif⟩
    split at hif
    · rename_i hboth
      rcases hboth with ⟨rfl, rfl⟩
      cases hif
      exact ⟨rfl, hl, hr⟩
    · cases hif
  · rintro ⟨rfl, hl, hr⟩
    exact ⟨_, hl, _, hr, by simp⟩

/-- An expression is a number or a text. -/
theorem Scope.IsGlobal.integer_or_string {scope : Scope} (h : scope.IsGlobal) {e : Expr}
    {type : SymbolType} (htype : e.type scope = .ok type) : type = .integer ∨ type = .string := by
  cases e with
  | number n =>
    cases htype
    exact .inl rfl
  | text content =>
    cases htype
    exact .inr rfl
  | name x =>
    have hmem := h.typeOf?_eq_some_iff.1 (Scope.require_eq_ok_iff.1 htype)
    cases type with
    | void => exact absurd rfl (h.type_ne_void _ hmem)
    | integer => exact .inl rfl
    | string => exact .inr rfl
  | binary op lhs rhs => exact .inl (Expr.type_binary_eq_ok_iff.1 htype).1

/-- An expression keeps its type in a larger scope. -/
theorem Expr.type_mono {scope larger : Scope} (h : scope.IsGlobal) (hlarger : larger.IsGlobal)
    (hsub : scope.symbols ⊆ larger.symbols) {e : Expr} {type : SymbolType}
    (htype : e.type scope = .ok type) : e.type larger = .ok type := by
  induction e generalizing type with
  | number n => exact htype
  | text content => exact htype
  | name x =>
    have hname := Scope.require_eq_ok_iff.1 htype
    exact Scope.require_eq_ok_iff.2 (h.typeOf?_mono hlarger hsub hname)
  | binary op lhs rhs ihl ihr =>
    rcases Expr.type_binary_eq_ok_iff.1 htype with ⟨rfl, hl, hr⟩
    exact Expr.type_binary_eq_ok_iff.2 ⟨rfl, ihl hl, ihr hr⟩

/-! ## Statements -/

/-- The rules on types, with all names of the program known. -/
def Stmt.WellTyped (scope : Scope) : Stmt → Prop
  | declare type names => ∀ x ∈ names, scope.typeOf? x = some type.symbolType
  | assign name value =>
    ∃ type, scope.typeOf? name = some type ∧ value.type scope = .ok type
  | input name => ∃ type, scope.typeOf? name = some type
  | print items => ∀ e ∈ items, ∃ type, e.type scope = .ok type
  | cond lhs _ rhs body =>
    (∃ type, lhs.type scope = .ok type ∧ rhs.type scope = .ok type) ∧ body.WellTyped scope
  | goto _ => True
  | gosub _ => True
  | ret => True
  | stop => True

/-- A statement stays well typed in a larger scope. -/
theorem Stmt.WellTyped.mono {scope larger : Scope} (h : scope.IsGlobal)
    (hlarger : larger.IsGlobal) (hsub : scope.symbols ⊆ larger.symbols) {s : Stmt}
    (hs : s.WellTyped scope) : s.WellTyped larger := by
  induction s with
  | declare type names =>
    exact fun x hx => h.typeOf?_mono hlarger hsub (hs x hx)
  | assign name value =>
    rcases hs with ⟨type, hname, hvalue⟩
    exact ⟨type, h.typeOf?_mono hlarger hsub hname, Expr.type_mono h hlarger hsub hvalue⟩
  | input name =>
    rcases hs with ⟨type, hname⟩
    exact ⟨type, h.typeOf?_mono hlarger hsub hname⟩
  | print items =>
    intro e he
    rcases hs e he with ⟨type, htype⟩
    exact ⟨type, Expr.type_mono h hlarger hsub htype⟩
  | cond lhs op rhs body ih =>
    rcases hs with ⟨⟨type, hl, hr⟩, hbody⟩
    exact ⟨⟨type, Expr.type_mono h hlarger hsub hl, Expr.type_mono h hlarger hsub hr⟩, ih hbody⟩
  | goto target => trivial
  | gosub target => trivial
  | ret => trivial
  | stop => trivial

/-- Items that pass the check have types. -/
theorem exists_type_of_checkItems {scope : Scope} {items : List Expr}
    (h : checkItems scope items = .ok ()) : ∀ e ∈ items, ∃ type, e.type scope = .ok type := by
  induction items with
  | nil => simp
  | cons e rest ih =>
    rcases except_bind_eq_ok_iff.1 h with ⟨type, htype, hrest⟩
    intro d hd
    rcases List.mem_cons.1 hd with rfl | hd
    · exact ⟨type, htype⟩
    · exact ih hrest d hd

/-- No declared type is without values. -/
theorem DeclaredType.symbolType_ne_void (type : DeclaredType) : type.symbolType ≠ .void := by
  cases type <;> simp [DeclaredType.symbolType]

/-- A statement that passes the check keeps all symbols and is well typed behind itself. -/
theorem Stmt.wellTyped_of_check {scope inner : Scope} (h : scope.IsGlobal) {s : Stmt}
    (hok : s.check scope = .ok inner) :
    inner.IsGlobal ∧ scope.symbols ⊆ inner.symbols ∧ s.WellTyped inner := by
  induction s generalizing inner with
  | declare type names =>
    rcases h.declareAll_eq_ok type.symbolType_ne_void hok with ⟨hinner, hsymbols⟩
    refine ⟨hinner, ?_, ?_⟩
    · rw [hsymbols]
      exact List.subset_append_left _ _
    · intro x hx
      rw [hinner.typeOf?_eq_some_iff, hsymbols]
      exact List.mem_append_right _ (List.mem_map_of_mem hx)
  | assign name value =>
    rcases except_bind_eq_ok_iff.1 hok with ⟨expected, hname, hok⟩
    rcases except_bind_eq_ok_iff.1 hok with ⟨found, hvalue, hok⟩
    split at hok
    · rename_i heq
      cases hok
      subst heq
      exact ⟨h, List.Subset.refl _, expected, Scope.require_eq_ok_iff.1 hname, hvalue⟩
    · cases hok
  | input name =>
    rcases except_bind_eq_ok_iff.1 hok with ⟨type, hname, hok⟩
    cases hok
    exact ⟨h, List.Subset.refl _, type, Scope.require_eq_ok_iff.1 hname⟩
  | print items =>
    rcases except_bind_eq_ok_iff.1 hok with ⟨_, hitems, hok⟩
    cases hok
    exact ⟨h, List.Subset.refl _, exists_type_of_checkItems hitems⟩
  | cond lhs op rhs body ih =>
    rcases except_bind_eq_ok_iff.1 hok with ⟨l, hl, hok⟩
    rcases except_bind_eq_ok_iff.1 hok with ⟨r, hr, hok⟩
    split at hok
    · rename_i heq
      subst heq
      rcases ih hok with ⟨hinner, hsub, hbody⟩
      exact ⟨hinner, hsub,
        ⟨l, Expr.type_mono h hinner hsub hl, Expr.type_mono h hinner hsub hr⟩, hbody⟩
    · cases hok
  | goto target =>
    cases hok
    exact ⟨h, List.Subset.refl _, trivial⟩
  | gosub target =>
    cases hok
    exact ⟨h, List.Subset.refl _, trivial⟩
  | ret =>
    cases hok
    exact ⟨h, List.Subset.refl _, trivial⟩
  | stop =>
    cases hok
    exact ⟨h, List.Subset.refl _, trivial⟩

/-! ## Declarations -/

/-- The symbols that a statement declares, behind all conditions in front of it. -/
def Stmt.declarations : Stmt → List Symbol
  | declare type names => names.map fun x => ⟨upper x, type.symbolType⟩
  | cond _ _ _ body => body.declarations
  | _ => []

/-- The symbols that lines declare, in their order. -/
def declarations (lines : List Line) : List Symbol :=
  lines.flatMap fun line => line.stmt.declarations

/-- A declaration does not rename the scope. -/
theorem Scope.name_of_declareAll {scope inner : Scope} {type : SymbolType} {names : List String}
    (hok : scope.declareAll type names = .ok inner) : inner.name = scope.name := by
  induction names generalizing scope with
  | nil =>
    cases hok
    rfl
  | cons x rest ih =>
    rcases except_bind_eq_ok_iff.1 hok with ⟨middle, hfirst, hrest⟩
    have hmiddle : middle.name = scope.name := by
      unfold Scope.declare at hfirst
      split at hfirst
      · cases hfirst
      · cases hfirst
        rfl
    rw [ih hrest, hmiddle]

/-- Behind a statement that passes the check, what it declares stands behind all other symbols. -/
theorem Stmt.symbols_of_check {scope inner : Scope} (h : scope.IsGlobal) {s : Stmt}
    (hok : s.check scope = .ok inner) :
    inner.name = scope.name ∧ inner.symbols = scope.symbols ++ s.declarations := by
  have hsame : scope.name = scope.name ∧ scope.symbols = scope.symbols ++ [] := by simp
  induction s generalizing inner with
  | declare type names =>
    exact ⟨Scope.name_of_declareAll hok, (h.declareAll_eq_ok type.symbolType_ne_void hok).2⟩
  | assign name value =>
    rcases except_bind_eq_ok_iff.1 hok with ⟨_, -, hok⟩
    rcases except_bind_eq_ok_iff.1 hok with ⟨_, -, hok⟩
    split at hok
    · cases hok
      exact hsame
    · cases hok
  | input name =>
    rcases except_bind_eq_ok_iff.1 hok with ⟨_, -, hok⟩
    cases hok
    exact hsame
  | print items =>
    rcases except_bind_eq_ok_iff.1 hok with ⟨_, -, hok⟩
    cases hok
    exact hsame
  | cond lhs op rhs body ih =>
    rcases except_bind_eq_ok_iff.1 hok with ⟨_, -, hok⟩
    rcases except_bind_eq_ok_iff.1 hok with ⟨_, -, hok⟩
    split at hok
    · exact ih hok
    · cases hok
  | _ =>
    cases hok
    exact hsame

/-- A symbol is declared by a statement, perhaps under conditions. -/
def Stmt.Declares (s : Stmt) (symbol : Symbol) : Prop :=
  ∃ type names x, s.core = .declare type names ∧ x ∈ names ∧
    symbol = ⟨upper x, type.symbolType⟩

/-- The declarations of a statement are those it leads to behind its conditions. -/
theorem Stmt.declares_of_mem_declarations {s : Stmt} {symbol : Symbol}
    (h : symbol ∈ s.declarations) : s.Declares symbol := by
  induction s with
  | declare type names =>
    rcases List.mem_map.1 h with ⟨x, hx, rfl⟩
    exact ⟨type, names, x, rfl, hx, rfl⟩
  | cond lhs op rhs body ih => exact ih h
  | _ => cases h

/-! ## Programs -/

/-- Lines that pass the check are well typed behind the last of them. -/
theorem wellTyped_of_checkLines {scope inner : Scope} (h : scope.IsGlobal) {lines : List Line}
    (hok : checkLines scope lines = .ok inner) :
    inner.IsGlobal ∧ scope.symbols ⊆ inner.symbols ∧
      ∀ line ∈ lines, line.stmt.WellTyped inner := by
  induction lines generalizing scope with
  | nil =>
    cases hok
    exact ⟨h, List.Subset.refl _, by simp⟩
  | cons line rest ih =>
    unfold checkLines at hok
    split at hok
    · rename_i middle hline
      rcases Stmt.wellTyped_of_check h hline with ⟨hmiddle, hsub, htyped⟩
      rcases ih hmiddle hok with ⟨hinner, hsub', hrest⟩
      refine ⟨hinner, fun _ hsymbol => hsub' (hsub hsymbol), ?_⟩
      intro l hl
      rcases List.mem_cons.1 hl with rfl | hl
      · exact htyped.mono hmiddle hinner hsub'
      · exact hrest l hl
    · cases hok

/-- Behind lines that pass the check, what they declare stands behind all other symbols. -/
theorem symbols_of_checkLines {scope inner : Scope} (h : scope.IsGlobal) {lines : List Line}
    (hok : checkLines scope lines = .ok inner) :
    inner.name = scope.name ∧ inner.symbols = scope.symbols ++ declarations lines := by
  induction lines generalizing scope with
  | nil =>
    cases hok
    simp [declarations]
  | cons line rest ih =>
    unfold checkLines at hok
    split at hok
    · rename_i middle hline
      rcases Stmt.wellTyped_of_check h hline with ⟨hmiddle, -, -⟩
      rcases Stmt.symbols_of_check h hline with ⟨hname, hsymbols⟩
      rcases ih hmiddle hok with ⟨hname', hsymbols'⟩
      refine ⟨hname'.trans hname, ?_⟩
      rw [hsymbols', hsymbols, List.append_assoc, declarations, declarations, List.flatMap_cons]
    · cases hok

/-- The scope of a checked program holds its declarations in their order. -/
theorem Program.scope_eq {program : Program} {scope : Scope} (h : program.scope = .ok scope) :
    scope = ⟨⟨"GLOBAL", declarations program.lines⟩, []⟩ := by
  have hempty := Scope.isGlobal_empty "GLOBAL"
  rcases wellTyped_of_checkLines hempty h with ⟨hglobal, -, -⟩
  rcases symbols_of_checkLines hempty h with ⟨hname, hsymbols⟩
  rcases scope with ⟨⟨name, symbols⟩, enclosing⟩
  cases hname
  cases hsymbols
  cases hglobal.enclosing_eq
  rfl

/-- The scope of a checked program is built of its declarations, and all of its statements are
well typed in it. -/
theorem Program.wellTyped_of_scope {program : Program} {scope : Scope}
    (h : program.scope = .ok scope) :
    scope.IsGlobal ∧ (∀ line ∈ program.lines, line.stmt.WellTyped scope) ∧
      ∀ symbol ∈ scope.symbols, ∃ line ∈ program.lines, line.stmt.Declares symbol := by
  have hempty := Scope.isGlobal_empty "GLOBAL"
  rcases wellTyped_of_checkLines hempty h with ⟨hglobal, -, htyped⟩
  refine ⟨hglobal, htyped, fun symbol hsymbol => ?_⟩
  rw [Program.scope_eq h] at hsymbol
  rcases List.mem_flatMap.1 hsymbol with ⟨line, hline, hdeclared⟩
  exact ⟨line, hline, Stmt.declares_of_mem_declarations hdeclared⟩

end LineBasic
