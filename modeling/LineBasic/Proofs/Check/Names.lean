import LineBasic.Proofs.Check.Typing

/-!
# The names in a program

The variables of a program are the names that occur in it.  The checker finds a type for every one
of them, so that they are the names of the symbols in the scope.

Main definitions:

- `Expr.names`, `Stmt.names` and `Program.names`: the names that occur.

Main results:

- `Expr.exists_typeOf?` and `Stmt.WellTyped.exists_typeOf?`: every name has a type.
-/

namespace LineBasic

/-- The variables in an expression. -/
def Expr.names : Expr → List String
  | number _ => []
  | text _ => []
  | name x => [x]
  | binary _ lhs rhs => lhs.names ++ rhs.names

/-- The variables in a statement. -/
def Stmt.names : Stmt → List String
  | declare _ names => names
  | assign name value => name :: value.names
  | input name => [name]
  | print items => items.flatMap Expr.names
  | cond lhs _ rhs body => lhs.names ++ rhs.names ++ body.names
  | _ => []

/-- The variables in a program. -/
def Program.names (program : Program) : List String :=
  program.lines.flatMap fun line => line.stmt.names

variable {scope : Scope}

/-- A variable in capitals is among the symbols with its type. -/
theorem Scope.IsGlobal.mem_of_typeOf? (h : scope.IsGlobal) {x : String} (hupper : upper x = x)
    {type : SymbolType} (htype : scope.typeOf? x = some type) : ⟨x, type⟩ ∈ scope.symbols := by
  rw [h.typeOf?_eq_some_iff, hupper] at htype
  exact htype

/-- A name in capitals that has a type is that of a symbol. -/
theorem Scope.IsGlobal.mem_names (h : scope.IsGlobal) {x : String} (hupper : upper x = x)
    {type : SymbolType} (htype : scope.typeOf? x = some type) :
    x ∈ scope.symbols.map Symbol.name :=
  List.mem_map_of_mem (f := Symbol.name) (h.mem_of_typeOf? hupper htype)

/-- The variables of an expression that has a type have types. -/
theorem Expr.exists_typeOf? {e : Expr} {type : SymbolType} (h : e.type scope = .ok type) :
    ∀ x ∈ e.names, ∃ type, scope.typeOf? x = some type := by
  induction e generalizing type with
  | number n => simp [names]
  | text content => simp [names]
  | name x =>
    rw [names, List.forall_mem_singleton]
    exact ⟨type, Scope.require_eq_ok_iff.1 h⟩
  | binary op lhs rhs ihl ihr =>
    rcases Expr.type_binary_eq_ok_iff.1 h with ⟨-, hl, hr⟩
    rw [names, List.forall_mem_append]
    exact ⟨ihl hl, ihr hr⟩

/-- The variables of a well-typed statement have types. -/
theorem Stmt.WellTyped.exists_typeOf? {s : Stmt} (h : s.WellTyped scope) :
    ∀ x ∈ s.names, ∃ type, scope.typeOf? x = some type := by
  induction s with
  | declare type names => exact fun x hx => ⟨_, h x hx⟩
  | assign name value =>
    rcases h with ⟨type, hname, hvalue⟩
    rw [names, List.forall_mem_cons]
    exact ⟨⟨type, hname⟩, Expr.exists_typeOf? hvalue⟩
  | input name =>
    rw [names, List.forall_mem_singleton]
    exact h
  | print items =>
    intro x hx
    rcases List.mem_flatMap.1 hx with ⟨e, he, hx⟩
    rcases h e he with ⟨type, htype⟩
    exact Expr.exists_typeOf? htype x hx
  | cond lhs op rhs body ih =>
    rcases h with ⟨⟨type, hl, hr⟩, hbody⟩
    rw [names, List.forall_mem_append, List.forall_mem_append]
    exact ⟨⟨Expr.exists_typeOf? hl, Expr.exists_typeOf? hr⟩, ih hbody⟩
  | _ => simp [names]

end LineBasic
