import LineBasic.Proofs.Check.Names
import LineBasic.Proofs.Check.Violation

/-!
# Other numbers and other names

The numbers of a program matter only in their order, and as places that jumps go to.  Its names
matter only in that they are distinct.  A program with other numbers in the same order and with
other names passes both checks if the program itself does, and its scope has the other names.

Main definitions:

- `Renaming`: other numbers and other names.
- `Program.rename` and `Scope.rename`: programs and scopes with them.
- `Renaming.KeepsNames` and `Renaming.Fits`: names stay apart, and numbers stay in their order.
- `Renaming.FitsScope`: the names in a scope are among those that stay apart.

Main results:

- `Stmt.check_rename`: what the checker finds behind a statement.
- `Program.checkNumbering_rename` and `Program.scope_rename`: both checks of a program.
-/

namespace LineBasic

/-- Other numbers for lines and other names for variables. -/
structure Renaming where
  number : Int16 → Int16
  name : String → String

/-! ## Programs with other numbers and names -/

section Trees

variable (r : Renaming)

/-- An expression with other names. -/
def Expr.rename : Expr → Expr
  | number n => .number n
  | text content => .text content
  | name x => .name (r.name x)
  | binary op lhs rhs => .binary op lhs.rename rhs.rename

/-- A statement with other names, and with other numbers to jump to. -/
def Stmt.rename : Stmt → Stmt
  | declare type names => .declare type (names.map r.name)
  | assign name value => .assign (r.name name) (value.rename r)
  | input name => .input (r.name name)
  | print items => .print (items.map (Expr.rename r))
  | cond lhs op rhs body => .cond (lhs.rename r) op (rhs.rename r) body.rename
  | goto target => .goto (r.number target)
  | gosub target => .gosub (r.number target)
  | ret => .ret
  | stop => .stop

/-- A line with another number and other names. -/
def Line.rename (line : Line) : Line :=
  ⟨r.number line.number, line.stmt.rename r⟩

/-- A program with other numbers and names. -/
def Program.rename (program : Program) : Program :=
  ⟨program.lines.map (Line.rename r)⟩

/-- A symbol with another name. -/
def Symbol.rename (s : Symbol) : Symbol :=
  ⟨r.name s.name, s.type⟩

/-- A level whose symbols have other names. -/
def Frame.rename (f : Frame) : Frame :=
  ⟨f.name, f.symbols.map (Symbol.rename r)⟩

/-- A scope whose symbols have other names. -/
def Scope.rename (scope : Scope) : Scope :=
  ⟨scope.frame.rename r, scope.enclosing.map (Frame.rename r)⟩

end Trees

/-- Names in capitals stay distinct and in capitals. -/
structure Renaming.KeepsNames (r : Renaming) (names : List String) : Prop where
  upper_eq : ∀ x ∈ names, upper x = x
  upper_name : ∀ x ∈ names, upper (r.name x) = r.name x
  injective : ∀ x ∈ names, ∀ y ∈ names, r.name x = r.name y → x = y

/-- The variables of a program are in capitals, and stay distinct and in capitals; its numbers
stay in their order. -/
structure Renaming.Fits (r : Renaming) (program : Program) : Prop where
  keepsNames : r.KeepsNames program.names
  increasing : ∀ m ∈ program.lines.map Line.number, ∀ n ∈ program.lines.map Line.number,
    m < n → r.number m < r.number n

variable {r : Renaming}

/-! ## Numbers -/

/-- The numbers of lines stay distinct. -/
theorem Renaming.Fits.number_inj {program : Program} (h : r.Fits program) {m n : Int16}
    (hm : m ∈ program.lines.map Line.number) (hn : n ∈ program.lines.map Line.number) :
    r.number m = r.number n ↔ m = n := by
  refine ⟨fun heq => ?_, congrArg r.number⟩
  by_contra hne
  rcases Int16.lt_or_lt_of_ne hne with hlt | hlt
  · exact Int16.ne_of_lt (h.increasing m hm n hn hlt) heq
  · exact Int16.ne_of_lt (h.increasing n hn m hm hlt) heq.symm

/-- A statement jumps to the other number. -/
theorem Stmt.target?_rename (s : Stmt) : (s.rename r).target? = s.target?.map r.number := by
  induction s with
  | cond lhs op rhs body ih => exact ih
  | _ => rfl

/-- The lines have the other numbers. -/
theorem Program.map_number_rename (program : Program) :
    (program.rename r).lines.map Line.number =
      (program.lines.map Line.number).map r.number := by
  rw [Program.rename, List.map_map, List.map_map]
  rfl

/-- Numbers and jumps still follow the rules. -/
theorem Program.WellNumbered.rename {program : Program} (h : program.WellNumbered)
    (hr : r.Fits program) : (program.rename r).WellNumbered where
  increasing := by
    rw [Program.map_number_rename, List.pairwise_map]
    exact h.increasing.imp_of_mem fun {m n} hm hn => hr.increasing m hm n hn
  target_mem := by
    intro line hline t ht
    rcases List.mem_map.1 hline with ⟨old, hold, rfl⟩
    rw [Line.rename, Stmt.target?_rename, Option.map_eq_some_iff] at ht
    rcases ht with ⟨u, hu, rfl⟩
    rw [Program.map_number_rename]
    exact List.mem_map_of_mem (h.target_mem old hold u hu)

/-- A program with other numbers in the same order passes the check of numbers and jumps. -/
theorem Program.checkNumbering_rename {program : Program} (hr : r.Fits program)
    (h : program.checkNumbering = .ok ()) : (program.rename r).checkNumbering = .ok () :=
  ((Program.wellNumbered_of_checkNumbering h).rename hr).checkNumbering_eq_ok

/-! ## Scopes -/

/-- A scope as the checker builds it, of names that stay apart. -/
structure Renaming.FitsScope (r : Renaming) (names : List String) (scope : Scope) : Prop where
  keepsNames : r.KeepsNames names
  isGlobal : scope.IsGlobal
  subset : scope.symbols.map Symbol.name ⊆ names

section Scopes

variable {names : List String} {scope inner : Scope}

/-- The other symbol is found under the other name. -/
theorem Renaming.KeepsNames.find?_rename (h : r.KeepsNames names) {symbols : List Symbol}
    (hsub : symbols.map Symbol.name ⊆ names) {x : String} (hx : x ∈ names) :
    (symbols.map (Symbol.rename r)).find? (fun s => s.name == r.name x) =
      (symbols.find? fun s => s.name == x).map (Symbol.rename r) := by
  induction symbols with
  | nil => rfl
  | cons s rest ih =>
    rw [List.map_cons, List.cons_subset] at hsub
    rw [List.map_cons, List.find?_cons, List.find?_cons, ih hsub.2]
    by_cases heq : s.name = x
    · simp [Symbol.rename, heq]
    · have hne : r.name s.name ≠ r.name x := fun hname => heq (h.injective _ hsub.1 _ hx hname)
      simp [Symbol.rename, beq_false_of_ne heq, beq_false_of_ne hne]

/-- The symbol of the other name is put where that of the old name is. -/
theorem Renaming.KeepsNames.putSymbol_rename (h : r.KeepsNames names) {symbols : List Symbol}
    (hsub : symbols.map Symbol.name ⊆ names) {s : Symbol} (hs : s.name ∈ names) :
    putSymbol (s.rename r) (symbols.map (Symbol.rename r)) =
      (putSymbol s symbols).map (Symbol.rename r) := by
  induction symbols with
  | nil => rfl
  | cons t rest ih =>
    rw [List.map_cons, List.cons_subset] at hsub
    rw [List.map_cons, putSymbol, putSymbol, ih hsub.2]
    by_cases heq : t.name = s.name
    · simp [Symbol.rename, heq]
    · have hne : r.name t.name ≠ r.name s.name :=
        fun hname => heq (h.injective _ hsub.1 _ hs hname)
      simp [Symbol.rename, heq, hne]

namespace Renaming.FitsScope

variable {x : String} {type : SymbolType}

/-- A name means the other symbol. -/
theorem resolve?_rename (h : r.FitsScope names scope) (hx : x ∈ names) :
    (scope.rename r).resolve? (r.name x) = (scope.resolve? x).map (Symbol.rename r) := by
  rw [h.isGlobal.resolve?_eq, h.keepsNames.upper_eq x hx, ← h.keepsNames.find?_rename h.subset hx]
  simp only [Scope.resolve?, Scope.rename, h.isGlobal.enclosing_eq, List.map_nil,
    List.findSome?_cons, List.findSome?_nil, Frame.find?, Frame.rename, Scope.symbols,
    h.keepsNames.upper_name x hx]
  cases List.find? _ (scope.frame.symbols.map (Symbol.rename r)) <;> rfl

/-- A name has the type of the old one. -/
theorem typeOf?_rename (h : r.FitsScope names scope) (hx : x ∈ names) :
    (scope.rename r).typeOf? (r.name x) = scope.typeOf? x := by
  rw [Scope.typeOf?, h.resolve?_rename hx, Option.map_map]
  rfl

/-- A required name has the type of the old one. -/
theorem require_rename (h : r.FitsScope names scope) (hx : x ∈ names)
    (hok : scope.require x = .ok type) : (scope.rename r).require (r.name x) = .ok type := by
  rw [Scope.require_eq_ok_iff] at hok ⊢
  rw [h.typeOf?_rename hx, hok]

/-- A name is declared as the old one is. -/
theorem declare_rename (h : r.FitsScope names scope) (hx : x ∈ names)
    (hok : scope.declare type x = .ok inner) :
    (scope.rename r).declare type (r.name x) = .ok (inner.rename r) := by
  unfold Scope.declare at hok ⊢
  rw [h.resolve?_rename hx]
  split at hok
  · cases hok
  · rename_i hnone
    cases hok
    have hname : (Symbol.mk x type).name ∈ names := hx
    have hput := h.keepsNames.putSymbol_rename h.subset hname
    rw [hnone]
    simp only [Option.map_none, Scope.define, Scope.rename, Frame.define, Frame.rename,
      h.keepsNames.upper_eq x hx, h.keepsNames.upper_name x hx]
    exact congrArg (fun symbols => Except.ok (Scope.mk ⟨scope.frame.name, symbols⟩ _)) hput

/-- Behind the declaration of a name from the list, the names are still from the list. -/
theorem declare (h : r.FitsScope names scope) (htype : type ≠ .void) (hx : x ∈ names)
    (hok : scope.declare type x = .ok inner) : r.FitsScope names inner where
  keepsNames := h.keepsNames
  isGlobal := (h.isGlobal.declare_eq_ok htype hok).1
  subset := by
    rw [(h.isGlobal.declare_eq_ok htype hok).2, List.map_append, List.append_subset]
    refine ⟨h.subset, ?_⟩
    simpa [h.keepsNames.upper_eq x hx] using hx

/-- Names are declared as the old ones are. -/
theorem declareAll_rename (h : r.FitsScope names scope) (htype : type ≠ .void)
    {declared : List String} (hdeclared : declared ⊆ names)
    (hok : scope.declareAll type declared = .ok inner) :
    (scope.rename r).declareAll type (declared.map r.name) = .ok (inner.rename r) := by
  induction declared generalizing scope with
  | nil =>
    cases hok
    rfl
  | cons x rest ih =>
    rw [List.cons_subset] at hdeclared
    rcases except_bind_eq_ok_iff.1 hok with ⟨middle, hfirst, hrest⟩
    have hmiddle := h.declare htype hdeclared.1 hfirst
    exact except_bind_eq_ok_iff.2
      ⟨middle.rename r, h.declare_rename hdeclared.1 hfirst, ih hmiddle hdeclared.2 hrest⟩

end Renaming.FitsScope

/-! ## Expressions and statements -/

/-- An expression keeps its type. -/
theorem Expr.type_rename (h : r.FitsScope names scope) {e : Expr} (he : e.names ⊆ names)
    {type : SymbolType} (hok : e.type scope = .ok type) :
    (e.rename r).type (scope.rename r) = .ok type := by
  induction e generalizing type with
  | number n => exact hok
  | text content => exact hok
  | name x => exact h.require_rename (he List.mem_cons_self) hok
  | binary op lhs rhs ihl ihr =>
    rw [Expr.names, List.append_subset] at he
    rcases Expr.type_binary_eq_ok_iff.1 hok with ⟨rfl, hl, hr⟩
    exact Expr.type_binary_eq_ok_iff.2 ⟨rfl, ihl he.1 hl, ihr he.2 hr⟩

/-- Items still have types. -/
theorem checkItems_rename (h : r.FitsScope names scope) {items : List Expr}
    (hitems : items.flatMap Expr.names ⊆ names) (hok : checkItems scope items = .ok ()) :
    checkItems (scope.rename r) (items.map (Expr.rename r)) = .ok () := by
  induction items with
  | nil => rfl
  | cons e rest ih =>
    rw [List.flatMap_cons, List.append_subset] at hitems
    rcases except_bind_eq_ok_iff.1 hok with ⟨type, htype, hrest⟩
    exact except_bind_eq_ok_iff.2
      ⟨type, Expr.type_rename h hitems.1 htype, ih hitems.2 hrest⟩

/-- Behind a statement the checker finds the scope with other names. -/
theorem Stmt.check_rename (h : r.FitsScope names scope) {s : Stmt} (hs : s.names ⊆ names)
    (hok : s.check scope = .ok inner) :
    (s.rename r).check (scope.rename r) = .ok (inner.rename r) := by
  induction s with
  | declare type declared => exact h.declareAll_rename type.symbolType_ne_void hs hok
  | assign name value =>
    rw [Stmt.names, List.cons_subset] at hs
    rcases except_bind_eq_ok_iff.1 hok with ⟨expected, hname, hok⟩
    rcases except_bind_eq_ok_iff.1 hok with ⟨found, hvalue, hok⟩
    refine except_bind_eq_ok_iff.2 ⟨expected, h.require_rename hs.1 hname, ?_⟩
    refine except_bind_eq_ok_iff.2 ⟨found, Expr.type_rename h hs.2 hvalue, ?_⟩
    split at hok
    · rename_i heq
      cases hok
      exact if_pos heq
    · cases hok
  | input name =>
    rcases except_bind_eq_ok_iff.1 hok with ⟨type, hname, hok⟩
    cases hok
    exact except_bind_eq_ok_iff.2 ⟨type, h.require_rename (hs List.mem_cons_self) hname, rfl⟩
  | print items =>
    rcases except_bind_eq_ok_iff.1 hok with ⟨_, hitems, hok⟩
    cases hok
    exact except_bind_eq_ok_iff.2 ⟨(), checkItems_rename h hs hitems, rfl⟩
  | cond lhs op rhs body ih =>
    rw [Stmt.names, List.append_subset, List.append_subset] at hs
    rcases hs with ⟨⟨hlhs, hrhs⟩, hbody⟩
    rcases except_bind_eq_ok_iff.1 hok with ⟨left, hl, hok⟩
    rcases except_bind_eq_ok_iff.1 hok with ⟨right, hr, hok⟩
    refine except_bind_eq_ok_iff.2 ⟨left, Expr.type_rename h hlhs hl, ?_⟩
    refine except_bind_eq_ok_iff.2 ⟨right, Expr.type_rename h hrhs hr, ?_⟩
    split at hok
    · rename_i heq
      exact (if_pos heq).trans (ih hbody hok)
    · cases hok
  | goto | gosub | ret | stop =>
    cases hok
    rfl

/-- The names that a statement declares occur in it. -/
theorem Stmt.map_name_declarations_subset (h : r.KeepsNames names) {s : Stmt}
    (hs : s.names ⊆ names) : s.declarations.map Symbol.name ⊆ names := by
  induction s with
  | declare type declared =>
    intro y hy
    rcases List.mem_map.1 hy with ⟨symbol, hsymbol, rfl⟩
    rcases List.mem_map.1 hsymbol with ⟨x, hx, rfl⟩
    have hname : upper x ∈ names := by
      rw [h.upper_eq x (hs hx)]
      exact hs hx
    exact hname
  | cond lhs op rhs body ih =>
    rw [Stmt.names, List.append_subset] at hs
    exact ih hs.2
  | _ => exact List.nil_subset _

/-- Behind a statement with names from the list, the names are still from the list. -/
theorem Renaming.FitsScope.check (h : r.FitsScope names scope) {s : Stmt} (hs : s.names ⊆ names)
    (hok : s.check scope = .ok inner) : r.FitsScope names inner where
  keepsNames := h.keepsNames
  isGlobal := (Stmt.wellTyped_of_check h.isGlobal hok).1
  subset := by
    rw [(Stmt.symbols_of_check h.isGlobal hok).2, List.map_append, List.append_subset]
    exact ⟨h.subset, Stmt.map_name_declarations_subset h.keepsNames hs⟩

end Scopes

/-! ## Programs -/

/-- Behind lines the checker finds the scope with other names, and the old ones are still from the
list. -/
theorem checkLines_rename {names : List String} {scope inner : Scope}
    (h : r.FitsScope names scope) {lines : List Line}
    (hlines : ∀ line ∈ lines, line.stmt.names ⊆ names) (hok : checkLines scope lines = .ok inner) :
    checkLines (scope.rename r) (lines.map (Line.rename r)) = .ok (inner.rename r) ∧
      r.FitsScope names inner := by
  induction lines generalizing scope with
  | nil =>
    cases hok
    exact ⟨rfl, h⟩
  | cons line rest ih =>
    rcases List.forall_mem_cons.1 hlines with ⟨hline, hrest⟩
    unfold checkLines at hok
    split at hok
    · rename_i middle hcheck
      rw [List.map_cons, checkLines, Line.rename, Stmt.check_rename h hline hcheck]
      exact ih (h.check hline hcheck) hrest hok
    · cases hok

section Programs

variable {program : Program} {scope : Scope}

/-- The names of a line are names of the program. -/
theorem Program.names_subset {line : Line} (hline : line ∈ program.lines) :
    line.stmt.names ⊆ program.names :=
  fun _ hx => List.mem_flatMap.2 ⟨line, hline, hx⟩

/-- A program with other names passes the check of names and types, with the other names in its
scope. -/
theorem Program.scope_rename (hr : r.Fits program) (h : program.scope = .ok scope) :
    (program.rename r).scope = .ok (scope.rename r) ∧ r.FitsScope program.names scope :=
  checkLines_rename ⟨hr.keepsNames, Scope.isGlobal_empty "GLOBAL", List.nil_subset _⟩
    (fun _ hline => Program.names_subset hline) h

/-- All variables of a program are in its scope. -/
theorem Program.names_subset_scope (hr : r.Fits program) (h : program.scope = .ok scope) :
    program.names ⊆ scope.symbols.map Symbol.name := by
  rcases Program.wellTyped_of_scope h with ⟨hglobal, htyped, -⟩
  intro x hx
  rcases List.mem_flatMap.1 hx with ⟨line, hline, hxline⟩
  rcases (htyped line hline).exists_typeOf? x hxline with ⟨type, htype⟩
  exact hglobal.mem_names (hr.keepsNames.upper_eq x hx) htype

end Programs

end LineBasic
