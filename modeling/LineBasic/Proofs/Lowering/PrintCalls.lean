import LineBasic.Proofs.Lowering.Prepared

/-!
# Calls that print

Generated code calls a routine that prints once for each item of a program, in the order of the
items.  It is the routine for texts exactly if the type of the item is that of texts.

Main definitions:

- `Stmt.printed`: the items that a statement prints.
- `printCalls`: the calls in code that print something.

Main results:

- `printCalls_lowerStmt` and `printCalls_lowerLines`: the calls in the code of statements and lines.
-/

namespace LineBasic

open Assembly

/-! ## Printed items -/

/-- The items that a statement prints. -/
def Stmt.printed : Stmt → List Expr
  | print items => items
  | cond _ _ _ body => body.printed
  | _ => []

/-- The routine that prints an item of the type that an expression has. -/
def printRoutine (scope : Scope) (e : Expr) : Routine :=
  if e.type scope = .ok .string then .printString else .printNumber

/-- The routine that an item calls to print something. -/
def Assembly.Item.printCall? (item : Item) : Option Routine :=
  match item.instr? with
  | some (.call (.routine .printString)) => some .printString
  | some (.call (.routine .printNumber)) => some .printNumber
  | _ => none

/-- The calls that print something, in their order. -/
def printCalls (items : List Item) : List Routine :=
  items.filterMap Item.printCall?

theorem printCalls_append (xs ys : List Item) :
    printCalls (xs ++ ys) = printCalls xs ++ printCalls ys :=
  List.filterMap_append

/-- Plain code prints nothing. -/
theorem IsPlainCode.printCalls_eq {items : List Item} (h : IsPlainCode items) :
    printCalls items = [] := by
  refine List.filterMap_eq_nil_iff.2 fun item hitem => ?_
  have hplain := h item hitem
  unfold Item.printCall?
  split
  · cases hplain _ ‹_›
  · cases hplain _ ‹_›
  · rfl

section Printing

variable (scope : Scope)

/-- An item is printed by the routine for its type. -/
theorem printCalls_lowerItem (e : Expr) (st : LoweringState) :
    printCalls ((lowerItem scope e).run st).1 = [printRoutine scope e] := by
  cases e with
  | number n => rfl
  | text content => rfl
  | name x =>
    have hroutine : printRoutine scope (.name x) =
        if scope.isString x then .printString else .printNumber := by
      simp only [printRoutine, Expr.type, Scope.require_eq_ok_iff, Scope.isString_iff]
    rw [hroutine]
    simp only [lowerItem]
    split <;> rfl
  | binary op lhs rhs =>
    have hroutine : printRoutine scope (.binary op lhs rhs) = .printNumber := by
      refine if_neg fun htype => ?_
      cases (Expr.type_binary_eq_ok_iff.1 htype).1
    rw [hroutine, lowerItem, Lowering.run_bind]
    change printCalls (((lowerExpr scope (.binary op lhs rhs)).run st).1 ++ _) = _
    rw [printCalls_append, (isPlainCode_lowerExpr scope _ st).printCalls_eq]
    rfl

/-- Items are printed one after the other. -/
theorem printCalls_lowerItems (items : List Expr) (st : LoweringState) :
    printCalls ((lowerItems scope items).run st).1 = items.map (printRoutine scope) := by
  induction items generalizing st with
  | nil => rfl
  | cons e rest ih =>
    rw [lowerItems, Lowering.run_bind, Lowering.run_bind]
    change printCalls (((lowerItem scope e).run st).1 ++ _) = _
    rw [printCalls_append, printCalls_lowerItem, ih]
    rfl

/-- Resets print nothing. -/
theorem printCalls_flatMap_lowerReset (names : List String) :
    printCalls (names.flatMap (lowerReset scope)) = [] := by
  induction names with
  | nil => rfl
  | cons x rest ih =>
    rw [List.flatMap_cons, printCalls_append, ih, List.append_nil]
    unfold lowerReset
    split <;> rfl

/-- Assignments print nothing. -/
theorem printCalls_lowerAssign (name : String) (value : Expr) (st : LoweringState) :
    printCalls ((lowerAssign scope name value).run st).1 = [] := by
  cases value with
  | number n => rfl
  | text content => rfl
  | name x =>
    simp only [lowerAssign]
    split <;> rfl
  | binary op lhs rhs =>
    rw [lowerAssign, Lowering.run_bind]
    change printCalls (((lowerExpr scope (.binary op lhs rhs)).run st).1 ++ _) = _
    rw [printCalls_append, (isPlainCode_lowerExpr scope _ st).printCalls_eq]
    rfl

/-- The code of a statement prints its items, each by the routine for its type. -/
theorem printCalls_lowerStmt (s : Stmt) (st : LoweringState) :
    printCalls ((lowerStmt scope s).run st).1 = s.printed.map (printRoutine scope) := by
  induction s generalizing st with
  | declare type names => exact printCalls_flatMap_lowerReset scope names
  | assign name value => exact printCalls_lowerAssign scope name value st
  | input name =>
    change printCalls (lowerInput scope name) = []
    unfold lowerInput
    split <;> rfl
  | print items =>
    rw [lowerStmt, Lowering.run_bind]
    change printCalls (((lowerItems scope items).run st).1 ++ _) = _
    rw [printCalls_append, printCalls_lowerItems]
    exact List.append_nil _
  | cond lhs op rhs body ih =>
    rw [lowerStmt, Lowering.run_bind, Lowering.run_bind, Lowering.run_bind]
    change printCalls (((lowerExpr scope lhs).run st).1 ++ _ ++ _ ++ _) = _
    rw [printCalls_append, printCalls_append, printCalls_append, ih,
      (isPlainCode_lowerExpr scope lhs st).printCalls_eq,
      (isPlainCode_lowerExpr scope rhs _).printCalls_eq]
    rfl
  | _ => rfl

/-- The code of lines prints their items, each by the routine for its type. -/
theorem printCalls_lowerLines (lines : List Line) (st : LoweringState) :
    printCalls ((lowerLines scope lines).run st).1 =
      (lines.flatMap fun line => line.stmt.printed).map (printRoutine scope) := by
  induction lines generalizing st with
  | nil => rfl
  | cons line rest ih =>
    have hend : printCalls [.label (.inner .lineEnd)] = [] := rfl
    rw [run_lowerLines_cons, printCalls_append, ih, List.flatMap_cons, List.map_append,
      ← printCalls_lowerStmt scope line.stmt st, run_lowerLine]
    congr 1
    change printCalls (((lowerStmt scope line.stmt).run st).1 ++ _) = _
    rw [printCalls_append, hend, List.append_nil]

end Printing

end LineBasic
