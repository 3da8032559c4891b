import LineBasic.Proofs.Check.Renaming

/-!
# Programs in capitals

A program may have its names in any letter case.  Both checks disregard it: in capitals the program
passes them if it does as it is, and its scope is the same.

Main definitions:

- `Renaming.capitals`: all names in capitals, and the numbers as they are.
- `Program.targets`: the names that a program gives values to.

Main results:

- `Program.checkNumbering_capitals` and `Program.scope_capitals`: both checks of a program.
-/

namespace LineBasic

/-- All names in capitals, and the numbers as they are. -/
def Renaming.capitals : Renaming :=
  ⟨id, upper⟩

/-- The names that a statement gives values to. -/
def Stmt.targets : Stmt → List String
  | declare _ names => names
  | assign name _ => [name]
  | input name => [name]
  | cond _ _ _ body => body.targets
  | _ => []

/-- The names that a program gives values to. -/
def Program.targets (program : Program) : List String :=
  program.lines.flatMap fun line => line.stmt.targets

/-- The names that a line gives values to are among those of the program. -/
theorem Program.targets_subset {program : Program} {line : Line} (hline : line ∈ program.lines) :
    line.stmt.targets ⊆ program.targets :=
  fun _ hx => List.mem_flatMap.2 ⟨line, hline, hx⟩

/-! ## Numbers -/

/-- In capitals a program keeps its numbers and jumps. -/
theorem Program.checkNumbering_capitals {program : Program}
    (h : program.checkNumbering = .ok ()) :
    (program.rename .capitals).checkNumbering = .ok () := by
  have hwell := Program.wellNumbered_of_checkNumbering h
  have hnumbers : (program.rename .capitals).lines.map Line.number =
      program.lines.map Line.number := by
    rw [Program.map_number_rename]
    exact List.map_id _
  refine Program.WellNumbered.checkNumbering_eq_ok ⟨?_, ?_⟩
  · rw [hnumbers]
    exact hwell.increasing
  · intro line hline t ht
    rcases List.mem_map.1 hline with ⟨old, hold, rfl⟩
    rw [Line.rename, Stmt.target?_rename] at ht
    rw [hnumbers]
    refine hwell.target_mem old hold t ?_
    rwa [show Renaming.capitals.number = id from rfl, Option.map_id] at ht

/-! ## Names and types -/

section Scopes

variable {scope inner : Scope} {x : String} {type : SymbolType}

namespace Scope

@[simp] theorem resolve?_upper (scope : Scope) (x : String) :
    scope.resolve? (upper x) = scope.resolve? x := by
  simp [resolve?]

@[simp] theorem typeOf?_upper (scope : Scope) (x : String) :
    scope.typeOf? (upper x) = scope.typeOf? x := by
  simp [typeOf?]

@[simp] theorem define_upper (scope : Scope) (x : String) (type : SymbolType) :
    scope.define (upper x) type = scope.define x type := by
  simp [define, Frame.define]

/-- In capitals a required name has the same type. -/
theorem require_upper (h : scope.require x = .ok type) : scope.require (upper x) = .ok type := by
  rw [require_eq_ok_iff] at h ⊢
  rw [typeOf?_upper, h]

/-- Names are declared in capitals. -/
theorem declareAll_map_upper {names : List String}
    (h : scope.declareAll type names = .ok inner) :
    scope.declareAll type (names.map upper) = .ok inner := by
  induction names generalizing scope with
  | nil => exact h
  | cons x rest ih =>
    rcases except_bind_eq_ok_iff.1 h with ⟨middle, hfirst, hrest⟩
    refine except_bind_eq_ok_iff.2 ⟨middle, ?_, ih hrest⟩
    unfold Scope.declare at hfirst ⊢
    rw [resolve?_upper, define_upper]
    split at hfirst
    · cases hfirst
    · exact hfirst

end Scope

/-- In capitals an expression has the same type. -/
theorem Expr.type_capitals {e : Expr} (h : e.type scope = .ok type) :
    (e.rename .capitals).type scope = .ok type := by
  induction e generalizing type with
  | number n => exact h
  | text content => exact h
  | name x => exact Scope.require_upper h
  | binary op lhs rhs ihl ihr =>
    rcases Expr.type_binary_eq_ok_iff.1 h with ⟨rfl, hl, hr⟩
    exact Expr.type_binary_eq_ok_iff.2 ⟨rfl, ihl hl, ihr hr⟩

/-- In capitals items still have types. -/
theorem checkItems_capitals {items : List Expr} (h : checkItems scope items = .ok ()) :
    checkItems scope (items.map (Expr.rename .capitals)) = .ok () := by
  induction items with
  | nil => exact h
  | cons e rest ih =>
    rcases except_bind_eq_ok_iff.1 h with ⟨type, htype, hrest⟩
    exact except_bind_eq_ok_iff.2 ⟨type, Expr.type_capitals htype, ih hrest⟩

/-- Behind a statement in capitals the checker finds the same scope. -/
theorem Stmt.check_capitals {s : Stmt} (h : s.check scope = .ok inner) :
    (s.rename .capitals).check scope = .ok inner := by
  induction s with
  | declare type names => exact Scope.declareAll_map_upper h
  | assign name value =>
    rcases except_bind_eq_ok_iff.1 h with ⟨expected, hname, h⟩
    rcases except_bind_eq_ok_iff.1 h with ⟨found, hvalue, h⟩
    refine except_bind_eq_ok_iff.2 ⟨expected, Scope.require_upper hname, ?_⟩
    refine except_bind_eq_ok_iff.2 ⟨found, Expr.type_capitals hvalue, ?_⟩
    split at h
    · rename_i heq
      exact (if_pos heq).trans h
    · cases h
  | input name =>
    rcases except_bind_eq_ok_iff.1 h with ⟨type, hname, h⟩
    exact except_bind_eq_ok_iff.2 ⟨type, Scope.require_upper hname, h⟩
  | print items =>
    rcases except_bind_eq_ok_iff.1 h with ⟨_, hitems, h⟩
    exact except_bind_eq_ok_iff.2 ⟨(), checkItems_capitals hitems, h⟩
  | cond lhs op rhs body ih =>
    rcases except_bind_eq_ok_iff.1 h with ⟨left, hl, h⟩
    rcases except_bind_eq_ok_iff.1 h with ⟨right, hr, h⟩
    refine except_bind_eq_ok_iff.2 ⟨left, Expr.type_capitals hl, ?_⟩
    refine except_bind_eq_ok_iff.2 ⟨right, Expr.type_capitals hr, ?_⟩
    split at h
    · rename_i heq
      exact (if_pos heq).trans (ih h)
    · cases h
  | goto | gosub | ret | stop => exact h

/-- Behind lines in capitals the checker finds the same scope. -/
theorem checkLines_capitals {lines : List Line} (h : checkLines scope lines = .ok inner) :
    checkLines scope (lines.map (Line.rename .capitals)) = .ok inner := by
  induction lines generalizing scope with
  | nil => exact h
  | cons line rest ih =>
    unfold checkLines at h
    split at h
    · rename_i middle hcheck
      rw [List.map_cons, checkLines, Line.rename, Stmt.check_capitals hcheck]
      exact ih h
    · cases h

end Scopes

/-- In capitals a program has the same scope. -/
theorem Program.scope_capitals {program : Program} {scope : Scope}
    (h : program.scope = .ok scope) : (program.rename .capitals).scope = .ok scope :=
  checkLines_capitals h

end LineBasic
