import LineBasic.Machine.Store

/-!
# Divisions that are made

Evaluation goes from left to right and ends at the first fault, so an expression makes only those of
its divisions that it comes to.  The same holds of the items of a printing statement, and a
condition comes to its body only if it holds.

Main definitions:

- `Expr.Divides`: the evaluation of an expression divides one number by another.
- `SidesDivide`, `ItemsDivide` and `Stmt.Divides`: so does that of two expressions or of items, and
  the execution of a statement.

Main results:

- `Expr.divides_binary_iff`: an operation makes the divisions of its operands before its own.
- `sidesDivide_iff` and `itemsDivide_cons_iff`: the divisions behind an expression that has a value.
-/

namespace LineBasic

open Machine

section Definitions

variable (store : Store) (a b : Int16)

/-- The evaluation of an expression comes to the division of `a` by `b`. -/
def Expr.Divides : Expr → Prop
  | binary op lhs rhs =>
    (lhs.Divides ∨ (∃ l, evalNumber store lhs = .ok l) ∧ rhs.Divides) ∨
      op = .div ∧ evalNumber store lhs = .ok a ∧ evalNumber store rhs = .ok b
  | _ => False

/-- The evaluation of two expressions for numbers, one after the other, comes to it. -/
def SidesDivide (lhs rhs : Expr) : Prop :=
  lhs.Divides store a b ∨ (∃ l, evalNumber store lhs = .ok l) ∧ rhs.Divides store a b

/-- The evaluation of items, one after the other, comes to it. -/
def ItemsDivide : List Expr → Prop
  | [] => False
  | e :: rest => e.Divides store a b ∨ (∃ v, eval store e = .ok v) ∧ ItemsDivide rest

/-- The execution of a statement comes to it. -/
def Stmt.Divides : Stmt → Prop
  | assign _ value => value.Divides store a b
  | print items => ItemsDivide store a b items
  | cond lhs op rhs body =>
    SidesDivide store a b lhs rhs ∨
      (∃ l r, evalNumber store lhs = .ok l ∧ evalNumber store rhs = .ok r ∧
        op.holds (compare l r) = true) ∧ body.Divides
  | _ => False

end Definitions

variable {store : Store} {a b : Int16} {lhs rhs : Expr}

/-- An operation makes the divisions of its operands, and then may be a division itself. -/
theorem Expr.divides_binary_iff {op : ArithOp} :
    (Expr.binary op lhs rhs).Divides store a b ↔ SidesDivide store a b lhs rhs ∨
      op = .div ∧ evalNumber store lhs = .ok a ∧ evalNumber store rhs = .ok b :=
  .rfl

/-- Behind an expression that faults no divisions are made. -/
theorem sidesDivide_of_error {fault : Fault} (h : evalNumber store lhs = .error fault) :
    SidesDivide store a b lhs rhs ↔ lhs.Divides store a b := by
  simp [SidesDivide, h]

/-- Behind an expression that has a value those of the other one are made. -/
theorem sidesDivide_iff {l : Int16} (h : evalNumber store lhs = .ok l) :
    SidesDivide store a b lhs rhs ↔ lhs.Divides store a b ∨ rhs.Divides store a b := by
  simp [SidesDivide, h]

/-- Behind an item that faults no divisions are made. -/
theorem itemsDivide_cons_of_error {e : Expr} {rest : List Expr} {fault : Fault}
    (h : eval store e = .error fault) :
    ItemsDivide store a b (e :: rest) ↔ e.Divides store a b := by
  simp [ItemsDivide, h]

/-- Behind an item that has a value those of the other items are made. -/
theorem itemsDivide_cons_iff {e : Expr} {rest : List Expr} {v : Value}
    (h : eval store e = .ok v) :
    ItemsDivide store a b (e :: rest) ↔ e.Divides store a b ∨ ItemsDivide store a b rest := by
  simp [ItemsDivide, h]

end LineBasic
