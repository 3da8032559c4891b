import LineBasic.Proofs.Check.Numbering
import LineBasic.Proofs.FirstPlace
import Mathlib.Data.List.Induction

/-!
# The verdict on numbers and jumps

A program is refused for the first number that is not greater than the one before it, wherever
its jumps lead.  If there is no such number, it is refused for the first jump to a number that no
line has.

Main definitions:

- `NumberFault`: the error that a list of numbers gives.
- `JumpFault`: the error that the jumps of a program give.
- `Program.FirstViolation`: the error that a program gives.

Main results:

- `LineChecker.verdict_of_numbers` and `LineChecker.verdict_of_jumps`: the two passes of a checker.
- `LineChecker.check_verdict`: the verdict of a checker, new or in use.
- `LineChecker.checkAll_eq_map`: a checker in use gives the verdicts of new ones.
-/

namespace LineBasic

/-! ## The errors -/

/-- A number is not greater than the one right before it. -/
def IsMisplaced (before : List Int16) (number : Int16) : Prop :=
  ∃ previous ∈ before.getLast?, ¬ previous < number

/-- The error for the first misplaced number, which may be one of those before it or not. -/
inductive NumberFault (numbers : List Int16) : StructuralError → Prop where
  | duplicate {before previous number} :
      FirstAt IsMisplaced numbers (before ++ [previous]) number → number ∈ before ++ [previous] →
      NumberFault numbers (.duplicateLine number)
  | unordered {before previous number} :
      FirstAt IsMisplaced numbers (before ++ [previous]) number → number ∉ before ++ [previous] →
      NumberFault numbers (.unorderedLine number previous)

/-- A line jumps to a number that is not there. -/
def Line.JumpsOutOf (numbers : List Int16) (line : Line) : Prop :=
  ∃ t, line.stmt.target? = some t ∧ t ∉ numbers

/-- The error for the first jump, in the order of the lines, to a number that is not there. -/
inductive JumpFault (numbers : List Int16) (lines : List Line) : StructuralError → Prop where
  | jump {before line target} :
      FirstAt (fun _ => Line.JumpsOutOf numbers) lines before line →
      line.stmt.core = .goto target → JumpFault numbers lines (.invalidJump line.number target)
  | subroutineJump {before line target} :
      FirstAt (fun _ => Line.JumpsOutOf numbers) lines before line →
      line.stmt.core = .gosub target →
      JumpFault numbers lines (.invalidSubroutineJump line.number target)

/-- The error for the first violation of the rules in a program.  Jumps are of no account as
long as numbers are misplaced. -/
inductive Program.FirstViolation (program : Program) : StructuralError → Prop where
  | number {e} : NumberFault (program.lines.map Line.number) e → program.FirstViolation e
  | jump {e} : (program.lines.map Line.number).Pairwise (· < ·) →
      JumpFault (program.lines.map Line.number) program.lines e → program.FirstViolation e

/-! ## Misplaced numbers -/

/-- The last of increasing numbers is the greatest. -/
theorem le_of_pairwise_snoc {before : List Int16} {last n : Int16}
    (h : (before ++ [last]).Pairwise (· < ·)) (hn : n ∈ before ++ [last]) : n ≤ last := by
  rcases List.mem_append.1 hn with hbefore | hlast
  · exact Int16.le_of_lt ((List.pairwise_append.1 h).2.2 n hbefore last List.mem_cons_self)
  · rw [List.mem_singleton.1 hlast]
    exact Int16.le_refl _

/-- A number may be put behind increasing ones if it is greater than the last of them. -/
theorem pairwise_snoc_iff {before : List Int16} {number : Int16} :
    (before ++ [number]).Pairwise (· < ·) ↔
      before.Pairwise (· < ·) ∧ ¬ IsMisplaced before number := by
  rw [List.pairwise_append]
  simp only [List.pairwise_singleton, List.mem_singleton, forall_eq, true_and, IsMisplaced,
    Option.mem_def, not_exists, not_and, not_not]
  refine and_congr_right fun hsorted => ⟨fun h previous hlast => ?_, fun h n hn => ?_⟩
  · exact h previous (List.mem_of_getLast? hlast)
  · rcases List.eq_nil_or_concat before with rfl | ⟨front, last, rfl⟩
    · cases hn
    · rw [List.concat_eq_append] at hsorted hn h
      have hlast := h last List.getLast?_concat
      exact Int16.lt_of_le_of_lt (le_of_pairwise_snoc hsorted hn) hlast

/-- Numbers increase if each is greater than the one right before it. -/
theorem nowhere_isMisplaced_iff {numbers : List Int16} :
    Nowhere IsMisplaced numbers ↔ numbers.Pairwise (· < ·) := by
  induction numbers using List.reverseRecOn with
  | nil => simp
  | append_singleton front last ih => rw [nowhere_snoc_iff, pairwise_snoc_iff, ih]

/-- Numbers with a fault do not increase. -/
theorem NumberFault.not_pairwise {numbers : List Int16} {e : StructuralError}
    (h : NumberFault numbers e) : ¬ numbers.Pairwise (· < ·) := by
  rw [← nowhere_isMisplaced_iff]
  cases h with
  | duplicate hfirst => exact hfirst.not_nowhere
  | unordered hfirst => exact hfirst.not_nowhere

/-- Numbers have one error at most. -/
theorem NumberFault.unique {numbers : List Int16} {e e' : StructuralError}
    (h : NumberFault numbers e) (h' : NumberFault numbers e') : e = e' := by
  cases h with
  | duplicate hfirst hmem =>
    cases h' with
    | duplicate hfirst' =>
      rw [(hfirst.unique hfirst').2]
    | unordered hfirst' hnew =>
      rcases hfirst.unique hfirst' with ⟨hbefore, rfl⟩
      exact absurd (hbefore ▸ hmem) hnew
  | unordered hfirst hnew =>
    cases h' with
    | duplicate hfirst' hmem =>
      rcases hfirst.unique hfirst' with ⟨hbefore, rfl⟩
      exact absurd (hbefore ▸ hmem) hnew
    | unordered hfirst' =>
      rcases hfirst.unique hfirst' with ⟨hbefore, rfl⟩
      rw [(List.append_inj' hbefore rfl).2 |> List.singleton_inj.1]

/-! ## Jumps -/

/-- Where no line jumps out, all jumps go to numbers that are there. -/
theorem nowhere_jumpsOutOf_iff {numbers : List Int16} {lines : List Line} :
    Nowhere (fun _ => Line.JumpsOutOf numbers) lines ↔
      ∀ line ∈ lines, ∀ t, line.stmt.target? = some t → t ∈ numbers := by
  constructor
  · intro h line hline t ht
    rcases List.append_of_mem hline with ⟨before, behind, heq⟩
    exact Decidable.byContradiction fun hnot => h before line behind heq ⟨t, ht, hnot⟩
  · rintro h before line behind rfl ⟨t, ht, hnot⟩
    exact hnot (h line (by simp) t ht)

/-- With an error in its jumps, a program has a line that jumps out. -/
theorem JumpFault.not_nowhere {numbers : List Int16} {lines : List Line} {e : StructuralError}
    (h : JumpFault numbers lines e) : ¬ Nowhere (fun _ => Line.JumpsOutOf numbers) lines := by
  cases h with
  | jump hfirst => exact hfirst.not_nowhere
  | subroutineJump hfirst => exact hfirst.not_nowhere

/-- Jumps have one error at most. -/
theorem JumpFault.unique {numbers : List Int16} {lines : List Line} {e e' : StructuralError}
    (h : JumpFault numbers lines e) (h' : JumpFault numbers lines e') : e = e' := by
  cases h with
  | jump hfirst hcore =>
    cases h' with
    | jump hfirst' hcore' =>
      rcases hfirst.unique hfirst' with ⟨-, rfl⟩
      cases hcore.symm.trans hcore'
      rfl
    | subroutineJump hfirst' hcore' =>
      rcases hfirst.unique hfirst' with ⟨-, rfl⟩
      cases hcore.symm.trans hcore'
  | subroutineJump hfirst hcore =>
    cases h' with
    | jump hfirst' hcore' =>
      rcases hfirst.unique hfirst' with ⟨-, rfl⟩
      cases hcore.symm.trans hcore'
    | subroutineJump hfirst' hcore' =>
      rcases hfirst.unique hfirst' with ⟨-, rfl⟩
      cases hcore.symm.trans hcore'
      rfl

/-- A fault behind lines without faults is that of all lines. -/
theorem JumpFault.behind {numbers : List Int16} {front lines : List Line} {e : StructuralError}
    (hfront : Nowhere (fun _ => Line.JumpsOutOf numbers) front) (h : JumpFault numbers lines e) :
    JumpFault numbers (front ++ lines) e := by
  cases h with
  | jump hfirst hcore => exact .jump (.behind hfront hfirst) hcore
  | subroutineJump hfirst hcore => exact .subroutineJump (.behind hfront hfirst) hcore

namespace LineChecker

/-! ## The pass over the numbers -/

/-- The pass over numbers learns all of them, or stops at the first one that is misplaced.
`before` are the numbers it has passed. -/
theorem verdict_of_numbers (lines : List Line) {before : List Int16} {c : LineChecker}
    (hsorted : before.Pairwise (· < ·)) (hknown : ∀ t, t ∈ c.known ↔ t ∈ before) :
    (∃ c', (checkNumbers before.getLast? lines).run c = .ok () c' ∧
        (before ++ lines.map Line.number).Pairwise (· < ·) ∧
        ∀ t, t ∈ c'.known ↔ t ∈ before ++ lines.map Line.number) ∨
      ∃ e c', (checkNumbers before.getLast? lines).run c = .error e c' ∧
        NumberFault (before ++ lines.map Line.number) e := by
  induction lines generalizing before c with
  | nil =>
    refine .inl ⟨c, rfl, ?_, ?_⟩
    · simpa using hsorted
    · simpa using hknown
  | cons line rest ih =>
    by_cases hmisplaced : IsMisplaced before line.number
    · rcases hmisplaced with ⟨last, hlast, hle⟩
      rcases List.getLast?_eq_some_iff.1 hlast with ⟨front, rfl⟩
      have hfirst : FirstAt IsMisplaced (front ++ [last] ++ (line :: rest).map Line.number)
          (front ++ [last]) line.number :=
        ⟨⟨_, rfl⟩, ⟨last, hlast, hle⟩, nowhere_isMisplaced_iff.2 hsorted⟩
      by_cases hmem : line.number ∈ front ++ [last]
      · refine .inr ⟨_, c, ?_, .duplicate hfirst hmem⟩
        simp [checkNumbers, learn, (hknown _).2 hmem]
      · -- the number is another one than the last, and so it is less
        have hnew : line.number ∉ c.known := fun h => hmem ((hknown _).1 h)
        have hne : line.number ≠ last := fun heq => hmem (by simp [heq])
        have hless : line.number < last := Int16.lt_of_le_of_ne (Int16.not_lt.1 hle) hne
        refine .inr ⟨_, { c with known := line.number :: c.known }, ?_, .unordered hfirst hmem⟩
        simp [checkNumbers, learn, hnew, hless]
    · have hsorted' := pairwise_snoc_iff.2 ⟨hsorted, hmisplaced⟩
      have hnew : line.number ∉ c.known := by
        intro hmem
        have hless := (List.pairwise_append.1 hsorted').2.2 _ ((hknown _).1 hmem) line.number
        exact Int16.lt_irrefl (hless List.mem_cons_self)
      have hknown' : ∀ t, t ∈ line.number :: c.known ↔ t ∈ before ++ [line.number] := by
        intro t
        simp [hknown t, or_comm]
      have hstep : (checkNumbers before.getLast? (line :: rest)).run c =
          (checkNumbers (before ++ [line.number]).getLast? rest).run
            { c with known := line.number :: c.known } := by
        rw [List.getLast?_concat]
        cases hlast : before.getLast? with
        | none => simp [checkNumbers, learn, hnew]
        | some last =>
          have hless : ¬ line.number < last := by
            intro hless
            exact hmisplaced ⟨last, hlast, Int16.not_lt.2 (Int16.le_of_lt hless)⟩
          simp [checkNumbers, learn, hnew, hless]
      have hall : before ++ (line :: rest).map Line.number =
          (before ++ [line.number]) ++ rest.map Line.number := by simp
      rw [hstep, hall]
      exact ih hsorted' hknown'

/-! ## The pass over the jumps -/

/-- The error for a statement in a line that jumps to a number that is not there. -/
theorem run_visitStmt_of_target {s : Stmt} {t : Int16} {c : LineChecker}
    (ht : s.target? = some t) (hnot : t ∉ c.known) :
    ∃ e, (visitor.visitStmt s).run c = .error e c ∧
      (s.core = .goto t ∧ e = .invalidJump c.current t ∨
        s.core = .gosub t ∧ e = .invalidSubroutineJump c.current t) := by
  induction s with
  | cond lhs op rhs body ih =>
    change ∃ e, (visitor.visitExpr lhs >>= fun _ => visitor.visitExpr rhs >>= fun _ =>
      visitor.visitStmt body).run c = .error e c ∧ _
    rw [visitExpr_eq, visitExpr_eq]
    exact ih ht
  | goto target =>
    cases ht
    refine ⟨.invalidJump c.current t, ?_, .inl ⟨rfl, rfl⟩⟩
    change (checkTarget t .invalidJump).run c = _
    simp [checkTarget, hnot]
  | gosub target =>
    cases ht
    refine ⟨.invalidSubroutineJump c.current t, ?_, .inr ⟨rfl, rfl⟩⟩
    change (checkTarget t .invalidSubroutineJump).run c = _
    simp [checkTarget, hnot]
  | _ => cases ht

/-- The pass over jumps finds all of them right, or stops at the first one that is not. -/
theorem verdict_of_jumps (lines : List Line) {numbers : List Int16} {c : LineChecker}
    (hknown : ∀ t, t ∈ c.known ↔ t ∈ numbers) :
    (∃ c', (visitor.visitLines lines).run c = .ok () c' ∧
        Nowhere (fun _ => Line.JumpsOutOf numbers) lines) ∨
      ∃ e c', (visitor.visitLines lines).run c = .error e c' ∧ JumpFault numbers lines e := by
  induction lines generalizing c with
  | nil => exact .inl ⟨c, rfl, nowhere_nil⟩
  | cons line rest ih =>
    have hsplit : line :: rest = [line] ++ rest := rfl
    by_cases hout : line.JumpsOutOf numbers
    · rcases hout with ⟨t, ht, hnot⟩
      have hfirst : FirstAt (fun _ => Line.JumpsOutOf numbers) (line :: rest) [] line :=
        ⟨⟨rest, rfl⟩, ⟨t, ht, hnot⟩, nowhere_nil⟩
      rcases run_visitStmt_of_target (c := { c with current := line.number }) ht
        (fun hmem => hnot ((hknown t).1 hmem)) with ⟨e, hrun, hcore⟩
      refine .inr ⟨e, { c with current := line.number }, run_bind_eq_error_iff.2 (.inl ?_), ?_⟩
      · exact run_bind_eq_error_iff.2 (.inr ⟨(), _, EStateM.run_modify _ _, hrun⟩)
      · rcases hcore with ⟨hcore, rfl⟩ | ⟨hcore, rfl⟩
        · exact .jump hfirst hcore
        · exact .subroutineJump hfirst hcore
    · have hhere : ∀ t, line.stmt.target? = some t → t ∈ c.known := by
        intro t ht
        exact Decidable.byContradiction fun hnot =>
          hout ⟨t, ht, fun hmem => hnot ((hknown t).2 hmem)⟩
      have hline := (run_visitLine_eq_ok_iff (u := ())).2 ⟨hhere, rfl⟩
      have hone : Nowhere (fun _ => Line.JumpsOutOf numbers) [line] :=
        nowhere_singleton_iff.2 hout
      rcases ih (c := { c with current := line.number }) hknown with
        ⟨c', hrun, hnowhere⟩ | ⟨e, c', hrun, hfault⟩
      · refine .inl ⟨c', run_bind_eq_ok_iff.2 ⟨(), _, hline, hrun⟩, ?_⟩
        rw [hsplit, nowhere_append_iff]
        exact ⟨hone, hnowhere⟩
      · exact .inr ⟨e, c', run_bind_eq_error_iff.2 (.inr ⟨(), _, hline, hrun⟩), hfault.behind hone⟩

/-! ## The verdict -/

/-- A checker accepts a program that follows the rules, and gives the error for the first
violation in any other one, whatever it has been used for before. -/
theorem check_verdict (c : LineChecker) (program : Program) :
    (c.check program).1 = .ok () ∧ program.WellNumbered ∨
      ∃ e, (c.check program).1 = .error e ∧ program.FirstViolation e := by
  have hstart : ∀ t : Int16, t ∈ ({ c with known := [] } : LineChecker).known ↔
      t ∈ ([] : List Int16) := fun t => Iff.rfl
  rcases verdict_of_numbers program.lines List.Pairwise.nil hstart with
    ⟨d, hnumbers, hsorted, hknown⟩ | ⟨e, d, hnumbers, hfault⟩
  · rcases verdict_of_jumps program.lines hknown with
      ⟨c', hjumps, hnowhere⟩ | ⟨e, c', hjumps, hfault⟩
    · have hrun : (visitor.visitProgram program).run c = .ok () c' :=
        run_bind_eq_ok_iff.2 ⟨(), _, EStateM.run_modify _ _,
          run_bind_eq_ok_iff.2 ⟨(), d, hnumbers, hjumps⟩⟩
      refine .inl ⟨?_, hsorted, nowhere_jumpsOutOf_iff.1 hnowhere⟩
      rw [check, hrun]
    · have hrun : (visitor.visitProgram program).run c = .error e c' :=
        run_bind_eq_error_iff.2 (.inr ⟨(), _, EStateM.run_modify _ _,
          run_bind_eq_error_iff.2 (.inr ⟨(), d, hnumbers, hjumps⟩)⟩)
      refine .inr ⟨e, ?_, .jump hsorted hfault⟩
      rw [check, hrun]
  · have hrun : (visitor.visitProgram program).run c = .error e d :=
      run_bind_eq_error_iff.2 (.inr ⟨(), _, EStateM.run_modify _ _,
        run_bind_eq_error_iff.2 (.inl hnumbers)⟩)
    refine .inr ⟨e, ?_, .number hfault⟩
    rw [check, hrun]

end LineChecker

/-- A program that passes the check follows the rules. -/
theorem Program.wellNumbered_of_checkNumbering {program : Program}
    (h : program.checkNumbering = .ok ()) : program.WellNumbered := by
  rcases LineChecker.check_verdict {} program with ⟨-, hwell⟩ | ⟨e, herror, -⟩
  · exact hwell
  · rw [Program.checkNumbering, herror] at h
    cases h

/-- A program with a violation does not follow the rules. -/
theorem Program.FirstViolation.not_wellNumbered {program : Program} {e : StructuralError}
    (h : program.FirstViolation e) : ¬ program.WellNumbered := by
  intro hwell
  cases h with
  | number hfault => exact hfault.not_pairwise hwell.increasing
  | jump _ hfault => exact hfault.not_nowhere (nowhere_jumpsOutOf_iff.2 hwell.target_mem)

/-- A program that follows the rules passes the check. -/
theorem Program.WellNumbered.checkNumbering_eq_ok {program : Program} (h : program.WellNumbered) :
    program.checkNumbering = .ok () := by
  rcases LineChecker.check_verdict {} program with ⟨hok, -⟩ | ⟨e, -, hfirst⟩
  · exact hok
  · exact absurd h hfirst.not_wellNumbered

/-- A program has one first violation at most. -/
theorem Program.FirstViolation.unique {program : Program} {e e' : StructuralError}
    (h : program.FirstViolation e) (h' : program.FirstViolation e') : e = e' := by
  cases h with
  | number hfault =>
    cases h' with
    | number hfault' => exact hfault.unique hfault'
    | jump hsorted' => exact absurd hsorted' hfault.not_pairwise
  | jump hsorted hfault =>
    cases h' with
    | number hfault' => exact absurd hsorted hfault'.not_pairwise
    | jump _ hfault' => exact hfault.unique hfault'

/-- The check accepts exactly the programs whose numbers increase and whose jumps all go to a line,
and refuses the others with the error for the first violation. -/
theorem Program.checkNumbering_verdict (program : Program) :
    (program.checkNumbering = .ok () ↔ program.WellNumbered) ∧
      ∀ e, program.checkNumbering = .error e ↔ program.FirstViolation e := by
  unfold Program.checkNumbering
  rcases LineChecker.check_verdict {} program with ⟨hok, hwell⟩ | ⟨e, herror, hfirst⟩
  · rw [hok]
    refine ⟨iff_of_true rfl hwell, fun e => ⟨fun h => ?_, fun h => ?_⟩⟩
    · cases h
    · exact absurd hwell h.not_wellNumbered
  · rw [herror]
    refine ⟨iff_of_false (by simp) hfirst.not_wellNumbered, fun e' => ⟨fun h => ?_, fun h => ?_⟩⟩
    · cases h
      exact hfirst
    · rw [hfirst.unique h]

namespace LineChecker

/-! ## Checkers in use -/

/-- The verdict of a checker does not depend on what it has been used for before. -/
theorem check_eq_checkNumbering (c : LineChecker) (program : Program) :
    (c.check program).1 = program.checkNumbering := by
  have hnew := check_verdict {} program
  rcases check_verdict c program with ⟨hok, hwell⟩ | ⟨e, herror, hfirst⟩
  · rcases hnew with ⟨hnew, -⟩ | ⟨e, -, hfirst⟩
    · exact hok.trans hnew.symm
    · exact absurd hwell hfirst.not_wellNumbered
  · rcases hnew with ⟨-, hwell⟩ | ⟨e', hnew, hfirst'⟩
    · exact absurd hwell hfirst.not_wellNumbered
    · rw [herror, Program.checkNumbering, hnew, hfirst.unique hfirst']

/-- One checker that is used for one program after the other gives each of them the verdict of a
new checker, whatever errors it has stopped with before and in which of its passes. -/
theorem checkAll_eq_map (c : LineChecker) (programs : List Program) :
    c.checkAll programs = programs.map Program.checkNumbering := by
  induction programs generalizing c with
  | nil => rfl
  | cons program rest ih =>
    rw [checkAll, check_eq_checkNumbering, ih, List.map_cons]

-- the number 10 is that of a line in the first program only
example : checkAll {} [⟨[⟨10, .goto 20⟩, ⟨20, .stop⟩]⟩, ⟨[⟨30, .goto 10⟩]⟩, ⟨[⟨10, .goto 10⟩]⟩] =
    [.ok (), .error (.invalidJump 30 10), .ok ()] := rfl

end LineChecker

end LineBasic
