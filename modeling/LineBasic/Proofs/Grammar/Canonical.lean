import LineBasic.Proofs.Grammar.Writable

/-!
# Canonical trees

The trees of programs have all their names in capitals, and have texts only where a whole item is
one: never inside an operation, and never on either side of a condition.  The checks and the
machine rely on no more than this.

Main definitions:

- `Expr.IsArithmetic` and `Expr.IsItem`: expressions without texts, and items.
- `Stmt.IsCanonical`: statements with names in capitals and texts as items only.

Main results:

- `Program.isCanonical_of_parse`: every program that a text is has this form.
-/

namespace LineBasic

/-! ## Canonical trees -/

/-- No text occurs in an expression, and its names are in capitals. -/
def Expr.IsArithmetic : Expr → Prop
  | number _ => True
  | text _ => False
  | name x => upper x = x
  | binary _ lhs rhs => lhs.IsArithmetic ∧ rhs.IsArithmetic

/-- An expression is a whole text, or has none in it; its names are in capitals. -/
def Expr.IsItem : Expr → Prop
  | text _ => True
  | e => e.IsArithmetic

/-- The names in a statement are in capitals, and its texts are whole items. -/
def Stmt.IsCanonical : Stmt → Prop
  | declare _ names => ∀ x ∈ names, upper x = x
  | assign name value => upper name = name ∧ value.IsItem
  | input name => upper name = name
  | print items => ∀ e ∈ items, e.IsItem
  | cond lhs _ rhs body => lhs.IsArithmetic ∧ rhs.IsArithmetic ∧ body.IsCanonical
  | goto _ => True
  | gosub _ => True
  | ret => True
  | stop => True

/-- An expression without texts may stand wherever an item may. -/
theorem Expr.IsArithmetic.isItem {e : Expr} (h : e.IsArithmetic) : e.IsItem := by
  cases e with
  | text content => cases h
  | number | name | binary => exact h

/-! ## Writable trees are canonical -/

/-- Writable expressions have no texts in them. -/
theorem Expr.IsWritable.isArithmetic {e : Expr} (h : e.IsWritable) : e.IsArithmetic := by
  induction e with
  | number n => trivial
  | text content => exact h
  | name x => exact IsName.upper_eq h
  | binary op lhs rhs ihl ihr => exact ⟨ihl h.1, ihr h.2⟩

/-- Writable items are items. -/
theorem Expr.IsWritableItem.isItem {e : Expr} (h : e.IsWritableItem) : e.IsItem := by
  cases e with
  | text content => trivial
  | number | name | binary => exact Expr.IsWritable.isArithmetic h

/-- Writable statements are canonical. -/
theorem Stmt.IsWritable.isCanonical {s : Stmt} (h : s.IsWritable) : s.IsCanonical := by
  induction s with
  | declare type names => exact fun x hx => (h.2 x hx).upper_eq
  | assign name value => exact ⟨h.1.upper_eq, h.2.isItem⟩
  | input name => exact IsName.upper_eq h
  | print items => exact fun e he => (h.2 e he).isItem
  | cond lhs op rhs body ih => exact ⟨h.1.isArithmetic, h.2.1.isArithmetic, ih h.2.2⟩
  | goto | gosub | ret | stop => trivial

/-- Every program that a text is has canonical statements. -/
theorem Program.isCanonical_of_parse {text : String} {program : Program}
    (h : Program.parse text = .ok program) : ∀ line ∈ program.lines, line.stmt.IsCanonical :=
  fun line hline => (Program.isWritable_of_parse h line hline).2.isCanonical

end LineBasic
