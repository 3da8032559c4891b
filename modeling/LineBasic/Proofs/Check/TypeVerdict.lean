import LineBasic.Proofs.Check.Demands

/-!
# The verdict on names and types

The checker goes through a program once, with the symbols declared so far in its scope.  It
accepts the program if all of its demands are met, with a scope of all declarations in their
order, and refuses it with the fault of the first demand that is not met.

Main results:

- `Expr.type_eq_ok_iff`: the checker finds the types that expressions have.
- `Expr.judges_type` and `Stmt.judges_check`: the checker judges expressions and statements by
  their demands.
- `verdict_of_lines`: the same for lines one after the other.
- `Program.scope_verdict`: the same for programs.
-/

namespace LineBasic

section Scopes

variable {scope : Scope}

/-! ## Names -/

/-- A name without a type is none of the declared ones. -/
theorem Scope.IsGlobal.typeOf?_eq_none_iff (h : scope.IsGlobal) {x : String} :
    scope.typeOf? x = none ↔ upper x ∉ scope.symbols.map Symbol.name := by
  rw [Scope.typeOf?, h.resolve?_eq, Option.map_eq_none_iff, List.find?_eq_none]
  simp

/-- A use of a name demands that it is declared. -/
theorem Scope.IsGlobal.judges_require (h : scope.IsGlobal) (x : String) :
    Judges scope.symbols [.declared x] (scope.require x) := by
  unfold Scope.require
  split
  · rename_i type htype
    have hmem := h.typeOf?_eq_some_iff.1 htype
    exact .step (List.mem_map_of_mem (f := Symbol.name) hmem) .nil
  · rename_i hnone
    exact .stop h.nodup (.undeclared (h.typeOf?_eq_none_iff.1 hnone))

/-- The declaration of a name demands that it is new. -/
theorem Scope.IsGlobal.judges_declare (h : scope.IsGlobal) (type : DeclaredType) (x : String) :
    Judges scope.symbols [.fresh type x] (scope.declare type.symbolType x) := by
  have hdeclared := h.typeOf?_eq_none_iff (x := x)
  rw [Scope.typeOf?, Option.map_eq_none_iff] at hdeclared
  unfold Scope.declare
  split
  · rename_i symbol hsymbol
    rw [hsymbol] at hdeclared
    have hmem := Decidable.not_not.1 fun hnew => by simpa using hdeclared.2 hnew
    exact .stop h.nodup (.redeclared hmem)
  · rename_i hnone
    exact .step (hdeclared.1 hnone) .nil

/-! ## Expressions -/

/-- The checker finds the types that expressions have. -/
theorem Expr.type_eq_ok_iff (h : scope.IsGlobal) {e : Expr} {type : SymbolType} :
    e.type scope = .ok type ↔ e.HasType scope.symbols type := by
  induction e generalizing type with
  | number n =>
    constructor
    · rintro ⟨⟩
      exact .number n
    · rintro ⟨⟩
      rfl
  | text content =>
    constructor
    · rintro ⟨⟩
      exact .text content
    · rintro ⟨⟩
      rfl
  | name x =>
    rw [Expr.type, Scope.require_eq_ok_iff, h.typeOf?_eq_some_iff]
    constructor
    · exact .name
    · rintro ⟨⟩
      assumption
  | binary op lhs rhs ihl ihr =>
    rw [Expr.type_binary_eq_ok_iff, ihl, ihr]
    constructor
    · rintro ⟨rfl, hl, hr⟩
      exact .binary hl hr
    · rintro ⟨⟩
      exact ⟨rfl, ‹_›, ‹_›⟩

/-- The type of an expression is found by its demands. -/
theorem Expr.judges_type (h : scope.IsGlobal) (e : Expr) :
    Judges scope.symbols e.demands (e.type scope) := by
  induction e with
  | number n => exact .nil
  | text content => exact .nil
  | name x => exact h.judges_require x
  | binary op lhs rhs ihl ihr =>
    rw [Expr.demands, List.append_assoc]
    refine ihl.bind fun l hl => ?_
    rw [declaredBy_demands, List.append_nil]
    refine ihr.bind fun r hr => ?_
    rw [declaredBy_demands, List.append_nil]
    rw [Expr.type_eq_ok_iff h] at hl hr
    split
    · rename_i hboth
      rcases hboth with ⟨rfl, rfl⟩
      exact .step ⟨hl, hr⟩ .nil
    · rename_i hnot
      exact .stop h.nodup (.invalidOperands hl hr hnot)

/-- Items are judged one after the other. -/
theorem judges_checkItems (h : scope.IsGlobal) (items : List Expr) :
    Judges scope.symbols (items.flatMap Expr.demands) (checkItems scope items) := by
  induction items with
  | nil => exact .nil
  | cons e rest ih =>
    rw [List.flatMap_cons]
    refine (e.judges_type h).bind fun type _ => ?_
    rwa [Expr.declaredBy_demands, List.append_nil]

/-! ## Statements -/

/-- Names are declared one after the other. -/
theorem judges_declareAll (h : scope.IsGlobal) (type : DeclaredType) (names : List String) :
    Judges scope.symbols (names.map (.fresh type)) (scope.declareAll type.symbolType names) := by
  induction names generalizing scope with
  | nil => exact .nil
  | cons x rest ih =>
    refine (h.judges_declare type x).bind fun inner hinner => ?_
    rcases h.declare_eq_ok type.symbolType_ne_void hinner with ⟨hglobal, hsymbols⟩
    have hknown : scope.symbols ++ declaredBy [.fresh type x] = inner.symbols := hsymbols.symm
    rw [hknown]
    exact ih hglobal

/-- A statement is judged by its demands. -/
theorem Stmt.judges_check (h : scope.IsGlobal) (s : Stmt) :
    Judges scope.symbols s.demands (s.check scope) := by
  induction s with
  | declare type names => exact judges_declareAll h type names
  | assign name value =>
    have hname : (Expr.name name).type scope = scope.require name := rfl
    change Judges _ ([.declared name] ++ (value.demands ++ [.assignable name value])) _
    refine (h.judges_require name).bind fun expected hexpected => ?_
    rw [← hname, Expr.type_eq_ok_iff h] at hexpected
    change Judges (scope.symbols ++ []) _ _
    rw [List.append_nil]
    refine (value.judges_type h).bind fun found hfound => ?_
    rw [Expr.type_eq_ok_iff h] at hfound
    rw [Expr.declaredBy_demands, List.append_nil]
    split
    · rename_i heq
      subst heq
      exact .step ⟨expected, hexpected, hfound⟩ .nil
    · rename_i hne
      exact .stop h.nodup (.assignMismatch hexpected hfound hne)
  | input name =>
    change Judges _ ([.declared name] ++ []) _
    exact (h.judges_require name).bind fun _ _ => .nil
  | print items =>
    have hdemands : (Stmt.print items).demands = items.flatMap Expr.demands ++ [] :=
      (List.append_nil _).symm
    rw [hdemands]
    exact (judges_checkItems h items).bind fun _ _ => .nil
  | cond lhs op rhs body ih =>
    rw [Stmt.demands, List.append_assoc, List.append_assoc]
    refine (lhs.judges_type h).bind fun l hl => ?_
    rw [Expr.declaredBy_demands, List.append_nil]
    refine (rhs.judges_type h).bind fun r hr => ?_
    rw [Expr.declaredBy_demands, List.append_nil]
    rw [Expr.type_eq_ok_iff h] at hl hr
    split
    · rename_i heq
      subst heq
      refine .step ⟨l, hl, hr⟩ ?_
      change Judges (scope.symbols ++ []) _ _
      rw [List.append_nil]
      exact ih
    · rename_i hne
      exact .stop h.nodup (.compareMismatch hl hr hne)
  | goto target => exact .nil
  | gosub target => exact .nil
  | ret => exact .nil
  | stop => exact .nil

end Scopes

/-! ## Lines and programs -/

/-- The demands of lines, in two parts. -/
theorem demands_append (xs ys : List Line) : demands (xs ++ ys) = demands xs ++ demands ys :=
  List.flatMap_append

/-- A program stays well typed without its last lines, and the demands of these lines are met
behind the others. -/
theorem wellTyped_append_iff {xs ys : List Line} :
    (Program.mk (xs ++ ys)).WellTyped ↔
      (Program.mk xs).WellTyped ∧ Nowhere (IsUnmet (declarations xs)) (demands ys) := by
  simp only [Program.WellTyped, demands_append, nowhere_isUnmet_append_iff, declaredBy_demands,
    List.nil_append]

/-- A program is well typed if it becomes ill typed behind none of its lines. -/
theorem wellTyped_iff_nowhere {lines : List Line} :
    (Program.mk lines).WellTyped ↔
      Nowhere (fun before line => ¬ (Program.mk (before ++ [line])).WellTyped) lines := by
  constructor
  · rintro h before line behind rfl hill
    have hsplit : before ++ line :: behind = (before ++ [line]) ++ behind := by simp
    rw [hsplit] at h
    exact hill (wellTyped_append_iff.1 h).1
  · intro h
    rcases List.eq_nil_or_concat lines with rfl | ⟨front, last, rfl⟩
    · exact nowhere_nil
    · rw [List.concat_eq_append] at h ⊢
      exact Classical.not_not.1 (nowhere_snoc_iff.1 h).2

/-- A well-typed program declares distinct names. -/
theorem Program.WellTyped.nodup {lines : List Line} (h : (Program.mk lines).WellTyped) :
    ((declarations lines).map Symbol.name).Nodup := by
  have hempty : (([] : List Symbol).map Symbol.name).Nodup := List.nodup_nil
  have hnodup := nodup_of_nowhere hempty h
  rwa [declaredBy_demands] at hnodup

/-- The demands of one line. -/
theorem demands_singleton (line : Line) : demands [line] = line.stmt.demands := by
  simp [demands]

/-- Lines are accepted behind lines that are well typed if they are, too, and refused with the
first type error otherwise. -/
theorem verdict_of_lines (lines : List Line) {front : List Line} {scope : Scope}
    (h : scope.IsGlobal) (hsymbols : scope.symbols = declarations front)
    (hfront : (Program.mk front).WellTyped) :
    (∃ inner, checkLines scope lines = .ok inner ∧ (Program.mk (front ++ lines)).WellTyped) ∨
      ∃ e, checkLines scope lines = .error e ∧ (Program.mk (front ++ lines)).FirstTypeError e := by
  induction lines generalizing front scope with
  | nil => exact .inl ⟨scope, rfl, by simpa using hfront⟩
  | cons line rest ih =>
    have hsplit : front ++ line :: rest = (front ++ [line]) ++ rest := by simp
    have hjudges := line.stmt.judges_check h
    rw [hsymbols] at hjudges
    unfold checkLines
    generalize hcheck : line.stmt.check scope = result at hjudges
    cases hjudges with
    | @ok inner hmet =>
      rcases Stmt.wellTyped_of_check h hcheck with ⟨hinner, -, -⟩
      have hinnerSymbols : inner.symbols = declarations (front ++ [line]) := by
        rw [(Stmt.symbols_of_check h hcheck).2, hsymbols]
        simp [declarations]
      rw [hsplit]
      refine ih hinner hinnerSymbols (wellTyped_append_iff.2 ⟨hfront, ?_⟩)
      rwa [demands_singleton]
    | @error fault hfault =>
      have hill : ¬ (Program.mk (front ++ [line])).WellTyped := by
        rw [wellTyped_append_iff, demands_singleton]
        exact fun hmet => hfault.not_nowhere hmet.2
      exact .inr ⟨_, rfl, .mk ⟨⟨rest, rfl⟩, hill, wellTyped_iff_nowhere.1 hfront⟩ hfault⟩

/-- A program with a type error is not well typed. -/
theorem Program.FirstTypeError.not_wellTyped {program : Program} {e : TypeError}
    (h : program.FirstTypeError e) : ¬ program.WellTyped := by
  cases h with
  | mk hfirst => exact fun hwell => hfirst.not_nowhere (wellTyped_iff_nowhere.1 hwell)

/-- A program has one first type error at most. -/
theorem Program.FirstTypeError.unique {program : Program} {e e' : TypeError}
    (h : program.FirstTypeError e) (h' : program.FirstTypeError e') : e = e' := by
  cases h with
  | @mk before line fault hfirst hfault =>
    cases h' with
    | @mk before' line' fault' hfirst' hfault' =>
      rcases hfirst.unique hfirst' with ⟨rfl, rfl⟩
      have hnodup := (wellTyped_iff_nowhere.2 hfirst.nowhere).nodup
      rw [hfault.unique hnodup hfault']

/-- The check accepts exactly the well-typed programs, with the scope of their declarations, and
refuses the others with the first type error. -/
theorem Program.scope_verdict (program : Program) :
    (∀ scope, program.scope = .ok scope ↔
      program.WellTyped ∧ scope = ⟨⟨"GLOBAL", declarations program.lines⟩, []⟩) ∧
      ∀ e, program.scope = .error e ↔ program.FirstTypeError e := by
  have hempty : (Program.mk []).WellTyped := nowhere_nil
  rcases verdict_of_lines program.lines (Scope.isGlobal_empty "GLOBAL") rfl hempty with
    ⟨inner, hok, hwell⟩ | ⟨e, herror, hfirst⟩
  · have hscope : program.scope = .ok inner := hok
    rw [hscope]
    refine ⟨fun scope => ⟨?_, ?_⟩, fun e => ⟨fun h => ?_, fun h => ?_⟩⟩
    · rintro ⟨⟩
      exact ⟨hwell, Program.scope_eq hscope⟩
    · rintro ⟨-, rfl⟩
      rw [Program.scope_eq hscope]
    · cases h
    · exact absurd hwell h.not_wellTyped
  · have hscope : program.scope = .error e := herror
    rw [hscope]
    refine ⟨fun scope => ⟨fun h => ?_, fun h => ?_⟩, fun e' => ⟨fun h => ?_, fun h => ?_⟩⟩
    · cases h
    · exact absurd h.1 hfirst.not_wellTyped
    · cases h
      exact hfirst
    · rw [hfirst.unique h]

end LineBasic
