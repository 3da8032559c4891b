import LineBasic.Check.Numbering
import LineBasic.Proofs.Sequencing

/-!
# Line numbers and jumps

The rules on numbers and jumps: numbers increase from line to line, and every jump goes to one of
them, whether it stands on its own or is the end of a chain of conditions.

Main definitions:

- `Stmt.core`: the statement that all conditions in front of it lead to.
- `Program.WellNumbered`: the rules on numbers and jumps.

Main results:

- `LineChecker.run_visitLine_eq_ok_iff`: what the check finds right in a line.
- `Program.WellNumbered.eq_of_number_eq`: a number belongs to one line.
-/

namespace LineBasic

/-! ## The rules -/

/-- A statement without the conditions in front of it. -/
def Stmt.core : Stmt → Stmt
  | cond _ _ _ body => body.core
  | s => s

/-- The number that a statement jumps to, if it is a jump behind its conditions. -/
def Stmt.target? : Stmt → Option Int16
  | cond _ _ _ body => body.target?
  | goto target => some target
  | gosub target => some target
  | _ => none

/-- The jumps are known from what conditions lead to. -/
theorem Stmt.target?_eq_some_iff {s : Stmt} {t : Int16} :
    s.target? = some t ↔ s.core = .goto t ∨ s.core = .gosub t := by
  induction s with
  | cond lhs op rhs body ih => exact ih
  | _ => simp [Stmt.target?, Stmt.core]

/-- Numbers increase from line to line, and jumps go to numbers of lines. -/
structure Program.WellNumbered (program : Program) : Prop where
  increasing : (program.lines.map Line.number).Pairwise (· < ·)
  target_mem : ∀ line ∈ program.lines, ∀ t, line.stmt.target? = some t →
    t ∈ program.lines.map Line.number

/-! ## The check -/

namespace LineChecker

/-- A jump is right if its target is known. -/
theorem run_checkTarget_eq_ok_iff {target : Int16} {fault : Int16 → Int16 → StructuralError}
    {c c' : LineChecker} {u : Unit} :
    (checkTarget target fault).run c = .ok u c' ↔ target ∈ c.known ∧ c' = c := by
  by_cases h : target ∈ c.known <;> simp [checkTarget, h, eq_comm]

/-- Nothing is checked in expressions. -/
theorem visitExpr_eq (e : Expr) : visitor.visitExpr e = pure () := by
  induction e with
  | binary op lhs rhs ihl ihr =>
    change (visitor.visitExpr lhs >>= fun _ => visitor.visitExpr rhs) = pure ()
    rw [ihl, ihr]
    rfl
  | _ => rfl

/-- Nothing is checked in lists of expressions. -/
theorem visitExprs_eq (items : List Expr) : visitor.visitExprs items = pure () := by
  induction items with
  | nil => rfl
  | cons e rest ih =>
    rw [Visitor.visitExprs, visitExpr_eq, ih]
    rfl

/-- In a statement, the target of its jump must be known. -/
theorem run_visitStmt_eq_ok_iff {s : Stmt} {c c' : LineChecker} {u : Unit} :
    (visitor.visitStmt s).run c = .ok u c' ↔
      (∀ t, s.target? = some t → t ∈ c.known) ∧ c' = c := by
  induction s with
  | cond lhs op rhs body ih =>
    change (visitor.visitExpr lhs >>= fun _ => visitor.visitExpr rhs >>= fun _ =>
      visitor.visitStmt body).run c = .ok u c' ↔ _
    rw [visitExpr_eq, visitExpr_eq]
    exact ih
  | goto target =>
    change (checkTarget target _).run c = .ok u c' ↔ _
    rw [run_checkTarget_eq_ok_iff]
    simp [Stmt.target?]
  | gosub target =>
    change (checkTarget target _).run c = .ok u c' ↔ _
    rw [run_checkTarget_eq_ok_iff]
    simp [Stmt.target?]
  | assign name value =>
    change (visitor.visitExpr value).run c = .ok u c' ↔ _
    rw [visitExpr_eq]
    simp [Stmt.target?, eq_comm]
  | print items =>
    change (visitor.visitExprs items).run c = .ok u c' ↔ _
    rw [visitExprs_eq]
    simp [Stmt.target?, eq_comm]
  | _ =>
    change (pure () : Check Unit).run c = .ok u c' ↔ _
    simp [Stmt.target?, eq_comm]

/-- In a line, the target of its jump must be known. -/
theorem run_visitLine_eq_ok_iff {line : Line} {c c' : LineChecker} {u : Unit} :
    (visitor.visitLine line).run c = .ok u c' ↔
      (∀ t, line.stmt.target? = some t → t ∈ c.known) ∧ c' = { c with current := line.number } := by
  change ((modify fun c : LineChecker => { c with current := line.number }) >>= fun _ =>
    visitor.visitStmt line.stmt).run c = .ok u c' ↔ _
  rw [run_bind_eq_ok_iff]
  constructor
  · rintro ⟨_, d, hd, hline⟩
    simp only [EStateM.run_modify, EStateM.Result.ok.injEq, true_and] at hd
    subst hd
    exact run_visitStmt_eq_ok_iff.1 hline
  · rintro ⟨htarget, rfl⟩
    exact ⟨(), _, EStateM.run_modify _ _, run_visitStmt_eq_ok_iff.2 ⟨htarget, rfl⟩⟩

end LineChecker

/-! ## Numbers that follow the rules -/

namespace Program.WellNumbered

variable {program : Program}

/-- No number is used twice. -/
theorem nodup (h : program.WellNumbered) : (program.lines.map Line.number).Nodup :=
  h.increasing.imp Int16.ne_of_lt

/-- Two places with one number are the same place. -/
theorem eq_of_number_eq (h : program.WellNumbered) {i j : Nat} {a b : Line}
    (ha : program.lines[i]? = some a) (hb : program.lines[j]? = some b)
    (hnumber : a.number = b.number) : i = j := by
  have hi := (List.getElem?_eq_some_iff.1 ha).1
  have hj := (List.getElem?_eq_some_iff.1 hb).1
  refine (List.getElem?_inj (by simpa using hi) h.nodup).1 ?_
  rw [List.getElem?_map, List.getElem?_map, ha, hb, Option.map_some, Option.map_some, hnumber]

end Program.WellNumbered

end LineBasic
