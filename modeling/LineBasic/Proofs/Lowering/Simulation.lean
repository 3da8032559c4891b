import LineBasic.Proofs.Lowering.Lines
import LineBasic.Proofs.Lowering.Narrative

/-!
# Generated code simulates the machine

For programs on numbers that read nothing, the listing and the machine go through the same lines.
Whenever both are at a line, the cells hold what the variables do and the stack holds the places to
come back to; they print the same, and they end alike.  This holds up to the first line that divides
-32768 by 1: the machine goes on, while the processor cannot make this division.

Main definitions:

- `Checked.NeverDivides`: no line of a run comes to the division of one number by another.
- `Checked.StopsInside`: the code stops in a line that comes to the division of -32768 by 1.
- `Checked.AtLine`: the state of a processor that is where a machine is.
- `Checked.Simulation`: what it means that code simulates the machine.

Main results:

- `exists_tracks_or_stopsInside`: the code follows every history, unless it stops.
- `matches_of_steps`: the code does nothing that the machine does not.
- `generated_code_simulates`: both for every accepted text.
-/

namespace LineBasic

open Assembly Machine

/-! ## The code follows the machine -/

/-- No line of a run comes to the division of `a` by `b`, if there were no errors before. -/
def Checked.NeverDivides (checked : Checked) (s₀ : State) (a b : Int16) : Prop :=
  ∀ trace s, History checked.program checked.scope s₀ trace s →
    (∀ event ∈ trace, event.error = none) → ¬ checked.NextDivides s a b

/-- The code follows a run up to a line that comes to the division of -32768 by 1.  There it stops
for good, and not with a routine that ends the program. -/
def Checked.StopsInside (checked : Checked) (s₀ : State) (p₀ : Processor) : Prop :=
  ∃ trace seen s i line printed k p, Narrative checked s₀ trace seen s ∧
    s.next = some i ∧ checked.program.lines[i]? = some line ∧
    line.stmt.Divides s.store (-32768) 1 ∧
    Steps checked.listing k p₀
      (seen ++ .line line.number :: List.map Value.observation printed) p ∧
    AtTrap checked.listing p ∧
    ∀ n seen' p', Steps checked.listing n p₀ seen' p' → n ≤ k ∧ ∀ r, p'.control ≠ .handed r

section Simulation

variable {checked : Checked} {input : List UInt8} {room : Option Nat} {trace : List Event}
  {seen : List Observation} {s : State} {p p₀ : Processor}

/-- The code stops in a line that comes to this division. -/
theorem stopsInside_of_tracks (hwell : checked.WellFormed) (hnumeric : checked.IsNumeric)
    (hnarrative : Narrative checked (.start checked.scope input room) trace seen s) {k : Nat}
    (hsteps : Steps checked.listing k p₀ seen p) (htracks : checked.Tracks s p)
    (hdivides : checked.NextDivides s (-32768) 1) :
    checked.StopsInside (.start checked.scope input room) p₀ := by
  obtain ⟨i, line, printed, hnext, hline, hstmt, n, p', hrest, htrap⟩ :=
    exists_traps_of_nextDivides hwell hnumeric hnarrative.history htracks hdivides
  have hall := hsteps.trans hrest
  exact ⟨trace, seen, s, i, line, printed, _, p', hnarrative, hnext, hline, hstmt, hall, htrap,
    fun j seen' m hm => ⟨hall.le_of_stuck htrap.step?_eq_none hm, hall.control_ne_handed htrap hm⟩⟩

/-- The code follows every history without errors, unless it stops on the way: it goes through the
same lines, and gets to where the machine is. -/
theorem exists_tracks_or_stopsInside (hwell : checked.WellFormed) (hnumeric : checked.IsNumeric)
    (hfresh : p₀.IsFresh checked.listing)
    (hhistory : History checked.program checked.scope (.start checked.scope input room) trace s)
    (hok : ∀ event ∈ trace, event.error = none) :
    (∃ seen k p, Narrative checked (.start checked.scope input room) trace seen s ∧
        Steps checked.listing k p₀ seen p ∧ checked.Tracks s p) ∨
      checked.StopsInside (.start checked.scope input room) p₀ := by
  induction hhistory with
  | refl =>
    rcases exists_tracks_start hwell hfresh input room with ⟨k, p, hsteps, htracks⟩
    exact .inl ⟨[], k, p, .start, hsteps, htracks⟩
  | @snoc trace event s s' hearlier hlast ih =>
    have hlastOk := hok event (List.mem_append_right _ (List.mem_singleton.2 rfl))
    rcases ih fun other hother => hok other (List.mem_append_left _ hother) with
      ⟨seen, k, m, hnarrative, hsteps, htracks⟩ | hstops
    · by_cases hdivides : checked.NextDivides s (-32768) 1
      · exact .inr (stopsInside_of_tracks hwell hnumeric hnarrative hsteps htracks hdivides)
      rcases hlast.performs_or_fails with ⟨line, hnext, hline, -⟩
      obtain ⟨shown, n, p, hshows, hrest, htracks'⟩ :=
        exists_tracks_of_advance hwell hnumeric hearlier htracks hdivides hlast hlastOk
      exact .inl ⟨_, _, p, .line hnarrative hlast hlastOk hline hshows,
        hsteps.trans (.head (htracks.step?_eq hnext hline) hrest), htracks'⟩
    · exact .inr hstops

/-- It does not stop, if no line comes to this division. -/
theorem exists_tracks_of_history (hwell : checked.WellFormed) (hnumeric : checked.IsNumeric)
    (hnever : checked.NeverDivides (.start checked.scope input room) (-32768) 1)
    (hfresh : p₀.IsFresh checked.listing)
    (hhistory : History checked.program checked.scope (.start checked.scope input room) trace s)
    (hok : ∀ event ∈ trace, event.error = none) :
    ∃ seen k p, Narrative checked (.start checked.scope input room) trace seen s ∧
      Steps checked.listing k p₀ seen p ∧ checked.Tracks s p := by
  refine (exists_tracks_or_stopsInside hwell hnumeric hfresh hhistory hok).resolve_right ?_
  rintro ⟨trace, seen, s, i, line, printed, k, p, hnarrative, hnext, hline, hstmt, -⟩
  exact hnever trace s hnarrative.history hnarrative.error_eq_none ⟨i, line, hnext, hline, hstmt⟩

/-- It stops, if some line does. -/
theorem stopsInside_of_not_neverDivides (hwell : checked.WellFormed) (hnumeric : checked.IsNumeric)
    (hfresh : p₀.IsFresh checked.listing)
    (h : ¬ checked.NeverDivides (.start checked.scope input room) (-32768) 1) :
    checked.StopsInside (.start checked.scope input room) p₀ := by
  simp only [Checked.NeverDivides, not_forall, not_not] at h
  obtain ⟨trace, s, hhistory, hok, hdivides⟩ := h
  rcases exists_tracks_or_stopsInside hwell hnumeric hfresh hhistory hok with
    ⟨seen, k, p, hnarrative, hsteps, htracks⟩ | hstops
  · exact stopsInside_of_tracks hwell hnumeric hnarrative hsteps htracks hdivides
  · exact hstops

/-- Runs that end with a fault of arithmetic. -/
theorem endsWith_of_routine? {fault : Fault} {r : Routine} {s₀ : State} {n : Nat}
    {number : Int16} (hroutine : fault.routine? = some r)
    (h : (runFor checked.program checked.scope n).run s₀ = .error (.onLine number fault) s) :
    checked.EndsWith s₀ r := by
  cases fault <;> cases hroutine <;> exact ⟨n, number, s, h⟩

/-- What is handed control at the end of a run is what it ends with. -/
theorem exists_handed_of_error (hwell : checked.WellFormed) (hnumeric : checked.IsNumeric)
    (hnever : checked.NeverDivides (.start checked.scope input room) (-32768) 1)
    (hfresh : p₀.IsFresh checked.listing) {n : Nat} {number : Int16} {fault : Fault} {r : Routine}
    (hroutine : fault.routine? = some r)
    (hrun : (runFor checked.program checked.scope n).run (.start checked.scope input room) =
      .error (.onLine number fault) s) :
    ∃ k seen p, Steps checked.listing k p₀ seen p ∧ p.control = .handed r := by
  obtain ⟨trace, hhistory, ⟨earlier, last, rfl, herror, hok⟩ | ⟨-, hout, -⟩⟩ :=
    history_of_runFor_eq_error hrun
  · rcases hhistory.exists_of_append with ⟨m, hearlier, hlast⟩
    have hadvance := hlast.advance_of_singleton
    obtain ⟨seen, k, p, -, hsteps, htracks⟩ :=
      exists_tracks_of_history hwell hnumeric hnever hfresh hearlier hok
    rcases hadvance.performs_or_fails with ⟨line, hnext, hline, -⟩
    obtain ⟨printed, j, p', hrest, hhanded⟩ :=
      hands_of_advance hwell hnumeric hearlier htracks
        (hnever earlier m hearlier hok) hadvance herror hroutine
    exact ⟨_, _, p', hsteps.trans (.head (htracks.step?_eq hnext hline) hrest), hhanded⟩
  · cases hout

/-- The code ends as runs do. -/
theorem exists_handed_of_endsWith (hwell : checked.WellFormed) (hnumeric : checked.IsNumeric)
    (hnever : checked.NeverDivides (.start checked.scope input room) (-32768) 1)
    (hfresh : p₀.IsFresh checked.listing) {r : Routine}
    (h : checked.EndsWith (.start checked.scope input room) r) :
    ∃ k seen p, Steps checked.listing k p₀ seen p ∧ p.control = .handed r := by
  cases r with
  | terminateProgram =>
    rcases h with ⟨n, s, hrun⟩
    rcases history_of_runFor_eq_ok hrun with ⟨trace, hhistory, hok, hended⟩
    obtain ⟨seen, k, p, -, hsteps, htracks⟩ :=
      exists_tracks_of_history hwell hnumeric hnever hfresh hhistory hok
    have hcontrol := htracks.control_eq
    rw [Option.isNone_iff_eq_none.1 hended.symm] at hcontrol
    exact ⟨k, seen, p, hsteps, hcontrol⟩
  | pcOutOfRange =>
    rcases h with ⟨n, last, s, hrun⟩
    obtain ⟨trace, hhistory, ⟨earlier, event, rfl, herror, -⟩ | ⟨hok, -, i, hnext, hnone⟩⟩ :=
      history_of_runFor_eq_error hrun
    · rcases hhistory.exists_of_append with ⟨m, -, hlast⟩
      exact absurd herror (hlast.advance_of_singleton.error_ne_pcOutOfRange last)
    · obtain ⟨seen, k, p, -, hsteps, htracks⟩ :=
        exists_tracks_of_history hwell hnumeric hnever hfresh hhistory hok
      have hinside := hwell.next_le hhistory i hnext
      have hbehind := List.getElem?_eq_none_iff.1 hnone
      rw [Nat.le_antisymm hinside hbehind] at hnext
      rcases hands_of_passed htracks hnext with ⟨p', hrest, hhanded⟩
      exact ⟨_, _, p', hsteps.trans hrest, hhanded⟩
  | arithmeticOverflow =>
    rcases h with ⟨n, number, s, hrun⟩
    exact exists_handed_of_error hwell hnumeric hnever hfresh rfl hrun
  | divisionByZero =>
    rcases h with ⟨n, number, s, hrun⟩
    exact exists_handed_of_error hwell hnumeric hnever hfresh rfl hrun
  | _ => cases h

end Simulation

/-! ## The machine follows the code -/

/-- What a processor has come to is what a run of the machine comes to. -/
structure Checked.Matches (checked : Checked) (s₀ : State) (seen : List Observation)
    (p : Processor) : Prop where
  at_line : ∀ i line, checked.program.lines[i]? = some line →
    p.control = .running (checked.position i) →
    ∃ trace s, Narrative checked s₀ trace seen s ∧ s.next = some i ∧ checked.Tracks s p
  handed : ∀ r, p.control = .handed r → checked.EndsWith s₀ r

section Converse

variable {checked : Checked} {input : List UInt8} {room : Option Nat} {trace : List Event}
  {seen : List Observation} {s : State} {p : Processor}

/-- The places of lines, and the one behind the last, are distinct. -/
theorem eq_of_position_eq (hwell : checked.WellFormed) {i j : Nat} {line : Line}
    (hline : checked.program.lines[i]? = some line) (hj : j ≤ checked.program.lines.length)
    (h : checked.position j = checked.position i) : j = i := by
  have hitem : checked.listing[checked.position i]? = some (.label (.line line.number)) :=
    getElem?_linePosition hline
  rcases Nat.lt_or_eq_of_le hj with hlt | rfl
  · have hother := List.getElem?_eq_getElem hlt
    have hitem' : checked.listing[checked.position j]? = some (.label (.line _)) :=
      getElem?_linePosition hother
    rw [h, hitem] at hitem'
    have hnumber : line.number = checked.program.lines[j].number := by simpa using hitem'
    exact hwell.numbered.eq_of_number_eq hother hline hnumber.symm
  · have hpassed : checked.listing[checked.position checked.program.lines.length]? =
        some (.instr (.jmp (.routine .pcOutOfRange))) := getElem?_linePosition_length
    rw [h, hitem] at hpassed
    cases hpassed

/-- A processor that is where a machine is has come to what a run comes to. -/
theorem Checked.Tracks.matches (hwell : checked.WellFormed)
    (hnarrative : Narrative checked (.start checked.scope input room) trace seen s)
    (h : checked.Tracks s p) :
    checked.Matches (.start checked.scope input room) seen p where
  at_line i line hline hcontrol := by
    have hthere := h.control_eq
    rw [hcontrol] at hthere
    cases hnext : s.next with
    | none =>
      rw [hnext] at hthere
      cases hthere
    | some j =>
      rw [hnext] at hthere
      have hplace : checked.position i = checked.position j := Control.running.inj hthere
      have hj := hwell.next_le hnarrative.history j hnext
      obtain rfl := eq_of_position_eq hwell hline hj hplace.symm
      exact ⟨trace, s, hnarrative, hnext, h⟩
  handed r hhanded := by
    have hthere := h.control_eq
    rw [hhanded] at hthere
    cases hnext : s.next with
    | some j =>
      rw [hnext] at hthere
      cases hthere
    | none =>
      rw [hnext] at hthere
      cases hthere
      refine ⟨trace.length + 0, s, ?_⟩
      rw [hnarrative.runFor_eq, runFor_of_ended hnext]

/-- A processor inside the code of a line is neither at a line nor at the end. -/
theorem matches_of_lt {s₀ : State} {n k : Nat} {m m' : Processor}
    {shown later : List Observation} (hrun : Steps checked.listing n m shown m')
    (hshown : ∀ number, .line number ∉ shown) (h : Steps checked.listing k m later p)
    (hlt : k < n) : checked.Matches s₀ seen p where
  at_line _ _ hline hcontrol :=
    absurd (getElem?_linePosition hline) ((hrun.notAt_of_lt hshown h hlt).2 _ _ hcontrol)
  handed r hhanded := absurd hhanded ((hrun.notAt_of_lt hshown h hlt).1 r)

/-- Values are not announcements of lines. -/
theorem line_notMem_map_observation (printed : List Value) (number : Int16) :
    .line number ∉ printed.map Value.observation := by
  intro hmem
  rcases List.mem_map.1 hmem with ⟨v, -, hv⟩
  cases v <;> cases hv

/-- A processor that has handed control over has come to what a run ends with, if a run ends so. -/
theorem matches_of_handed {s₀ : State} {r : Routine} (hhanded : p.control = .handed r)
    (h : checked.EndsWith s₀ r) : checked.Matches s₀ seen p where
  at_line i line _ hcontrol := by
    rw [hhanded] at hcontrol
    cases hcontrol
  handed r' hr := by
    rw [hhanded] at hr
    cases hr
    exact h

/-- The code of a line that fails only comes to the report of the fault, unless the line returns
without a call or the output of the machine is full. -/
theorem matches_of_failure (hwell : checked.WellFormed) (hnumeric : checked.IsNumeric)
    (hnever : checked.NeverDivides (.start checked.scope input room) (-32768) 1)
    (hreturns : ∀ n number s,
      (runFor checked.program checked.scope n).run (.start checked.scope input room) ≠
        .error (.onLine number .emptyStack) s)
    (hnarrative : Narrative checked (.start checked.scope input room) trace seen s)
    {m : Processor} (htracks : checked.Tracks s m) {event : Event} {s' : State}
    (hadvance : Advance checked.program checked.scope s event s') {e : RuntimeError}
    (herror : event.error = some e) {k : Nat} {later : List Observation}
    (hsteps : Steps checked.listing k (m.goTo (checked.position event.index + 1)) later p)
    (all : List Observation) :
    checked.IsRefused (.start checked.scope input room) ∨
      checked.Matches (.start checked.scope input room) all p := by
  have hhistory := hnarrative.history
  have hrun : (runFor checked.program checked.scope (trace.length + 1)).run
      (.start checked.scope input room) = .error e s' := by
    rw [hnarrative.runFor_eq, hadvance.runFor_of_error herror 0]
  obtain ⟨number, ⟨fault, r, rfl, hroutine⟩ | rfl | ⟨rfl, hroom⟩⟩ :=
    hnumeric.error_cases hwell hhistory hadvance herror
  · obtain ⟨printed, n, m', hreport, hhanded⟩ :=
      hands_of_advance hwell hnumeric hhistory htracks
        (hnever trace s hhistory hnarrative.error_eq_none) hadvance herror hroutine
    rcases Nat.lt_or_eq_of_le (hreport.le_of_handed hhanded hsteps) with hlt | rfl
    · exact .inr (matches_of_lt hreport (line_notMem_map_observation printed) hsteps hlt)
    · rcases hreport.unique hsteps with ⟨-, rfl⟩
      exact .inr (matches_of_handed hhanded (endsWith_of_routine? hroutine hrun))
  · exact absurd hrun (hreturns _ _ _)
  · refine .inl ⟨fun hlimit => hroom ?_, _, _, hrun⟩
    exact hhistory.invariant (P := fun s => s.output.room = none) hlimit
      fun _ _ _ hs hadvance => hadvance.room_eq_none hs

/-- The code does nothing that the machine does not: from where it follows a run, it only comes
to what the run comes to, unless the output of the machine is full. -/
theorem matches_of_steps (hwell : checked.WellFormed) (hnumeric : checked.IsNumeric)
    (hnever : checked.NeverDivides (.start checked.scope input room) (-32768) 1)
    (hreturns : ∀ n number s,
      (runFor checked.program checked.scope n).run (.start checked.scope input room) ≠
        .error (.onLine number .emptyStack) s)
    {k : Nat} {m : Processor} {later : List Observation}
    (hnarrative : Narrative checked (.start checked.scope input room) trace seen s)
    (htracks : checked.Tracks s m) (hsteps : Steps checked.listing k m later p) :
    checked.IsRefused (.start checked.scope input room) ∨
      checked.Matches (.start checked.scope input room) (seen ++ later) p := by
  induction k using Nat.strongRecOn generalizing trace seen s m later with
  | ind k ih =>
    have hhistory := hnarrative.history
    cases k with
    | zero =>
      cases hsteps
      rw [List.append_nil]
      exact .inr (htracks.matches hwell hnarrative)
    | succ k =>
      cases hnext : s.next with
      | none =>
        have hcontrol := htracks.control_eq
        rw [hnext] at hcontrol
        have hend := Steps.refl.le_of_handed hcontrol hsteps
        omega
      | some i =>
        rcases Nat.lt_or_eq_of_le (hwell.next_le hhistory i hnext) with hlt | rfl
        · have hline := List.getElem?_eq_getElem hlt
          obtain ⟨event, s', hadvance, rfl⟩ :=
            exists_advance checked.scope hnext hline
          have hfirst := htracks.step?_eq hnext hline
          cases hsteps with
          | head hstep hrest =>
            rw [hfirst] at hstep
            cases hstep
            cases herror : event.error with
            | some e =>
              exact matches_of_failure hwell hnumeric hnever hreturns hnarrative htracks hadvance
                herror hrest _
            | none =>
              obtain ⟨shown, n, m', hshows, hrun, htracks'⟩ :=
                exists_tracks_of_advance hwell hnumeric hhistory htracks
                  (hnever trace s hhistory hnarrative.error_eq_none) hadvance herror
              rcases Nat.lt_or_ge k n with hlt | hge
              · exact .inr (matches_of_lt hrun hshows.line_notMem hrest hlt)
              · rcases Nat.exists_eq_add_of_le hge with ⟨d, rfl⟩
                rcases hrest.split with ⟨middle, first, behind, rfl, hthrough, hbehind⟩
                rcases hrun.unique hthrough with ⟨rfl, rfl⟩
                have hnarrative' := hnarrative.line hadvance herror hline hshows
                have hmatches := ih d (by omega) hnarrative' htracks' hbehind
                rwa [List.append_assoc] at hmatches
        · rcases hands_of_passed htracks hnext with ⟨p', hone, hhanded⟩
          have hend := hone.le_of_handed hhanded hsteps
          obtain rfl : k = 0 := by omega
          rcases hone.unique hsteps with ⟨-, rfl⟩
          refine .inr (matches_of_handed hhanded ⟨trace.length + 1, s.line, s, ?_⟩)
          rw [hnarrative.runFor_eq, runFor_of_passed hnext 0]

end Converse

/-! ## Calls on the stack -/

section Calls

variable {checked : Checked}

/-- The code of a statement that comes down to a call ends with the call. -/
theorem exists_lowerStmt_eq_append_call (scope : Scope) {stmt : Stmt} {t : Int16}
    (h : stmt.core = .gosub t) (st : LoweringState) :
    ∃ front, ((lowerStmt scope stmt).run st).1 = front ++ code [.call (.line t)] := by
  induction stmt generalizing st with
  | cond lhs op rhs body ih =>
    let st' := ((lowerExpr scope rhs).run ((lowerExpr scope lhs).run st).2).2
    rcases ih h st' with ⟨front, hfront⟩
    refine ⟨((lowerExpr scope lhs).run st).1 ++
      ((lowerExpr scope rhs).run ((lowerExpr scope lhs).run st).2).1 ++ comparison op ++ front, ?_⟩
    change _ ++ ((lowerStmt scope body).run st').1 = _
    rw [hfront, ← List.append_assoc]
    rfl
  | gosub target =>
    cases h
    exact ⟨[], rfl⟩
  | _ => cases h

/-- The call of a line stands right before the place to come back to. -/
theorem getElem?_call (hwell : checked.WellFormed) {i : Nat} {line : Line} {t : Int16}
    (hline : checked.program.lines[i]? = some line) (hcore : line.stmt.core = .gosub t) :
    checked.listing[checked.position (i + 1) - 3]? = some (.instr (.call (.line t))) := by
  obtain ⟨front, hfront⟩ := exists_lowerStmt_eq_append_call checked.scope hcore
    (stateBefore checked.scope checked.program.lines i)
  have hbody : Placed checked.listing (checked.position i + 1)
      (lineBody checked.scope checked.program i line ++ [.label (.inner .lineEnd)]) :=
    placed_lineBody hwell.numbered hline
  have hcode : lineBody checked.scope checked.program i line = front ++ code [.call (.line t)] :=
    hfront
  have hlength : (front ++ code [.call (.line t)]).length = front.length + 1 :=
    List.length_append
  have hplace : checked.position (i + 1) - 3 = checked.position i + 1 + front.length := by
    unfold Checked.position
    rw [linePosition_succ hline, hcode, hlength]
    omega
  rw [hplace]
  exact (hcode ▸ hbody.left).right.head

end Calls

/-! ## The simulation -/

/-- The state of a processor that is where a machine is. -/
structure Checked.AtLine (checked : Checked) (s : State) (p : Processor) : Prop where
  /-- Control is at the next line, or the program has ended. -/
  control_eq : p.control = match s.next with
    | some i => .running (checked.position i)
    | none => .handed .terminateProgram
  /-- The cell of each variable holds what the variable does. -/
  cells_eq : ∀ symbol ∈ checked.scope.symbols, ∃ n,
    s.get? symbol.name = some (.integer n) ∧ p.cells (.var symbol.name) = some (.number n)
  /-- The stack holds the places to come back to and nothing else. -/
  stack_eq : s.next ≠ none → p.stack = s.returns.map checked.returnWord
  /-- Each of these places is the one behind the call on a line. -/
  returns : ∀ r ∈ s.returns, ∃ i line t, r = i + 1 ∧ checked.program.lines[i]? = some line ∧
    line.stmt.core = .gosub t ∧
    checked.listing[checked.position r - 3]? = some (.instr (.call (.line t)))

/-- The code of a program simulates the machine from its start. -/
structure Checked.Simulation (checked : Checked) (s₀ : State) (p₀ : Processor) : Prop where
  /-- The code goes through the lines of every history without errors, shows what they print, and
  gets to where the machine is. -/
  follows : ∀ trace s, History checked.program checked.scope s₀ trace s →
    (∀ event ∈ trace, event.error = none) →
    ∃ seen k p, Narrative checked s₀ trace seen s ∧ Steps checked.listing k p₀ seen p ∧
      checked.AtLine s p
  /-- The code gets to no line that the machine does not get to. -/
  leads : ∀ k seen p i line, checked.program.lines[i]? = some line →
    Steps checked.listing k p₀ seen p → p.control = .running (checked.position i) →
    checked.IsRefused s₀ ∨
      ∃ trace s, Narrative checked s₀ trace seen s ∧ s.next = some i ∧ checked.AtLine s p
  /-- What is seen is what the machine writes. -/
  prints : ∀ trace seen s, Narrative checked s₀ trace seen s →
    s.output.written.toList = s₀.output.written.toList ++ seen.flatMap Observation.bytes
  /-- The code ends as the machine does. -/
  ends : ∀ r, checked.EndsWith s₀ r →
    ∃ k seen p, Steps checked.listing k p₀ seen p ∧ p.control = .handed r
  /-- The code ends in no way in which the machine does not. -/
  ends_only : ∀ k seen p r, Steps checked.listing k p₀ seen p → p.control = .handed r →
    checked.IsRefused s₀ ∨ checked.EndsWith s₀ r

section Main

variable {checked : Checked} {input : List UInt8} {room : Option Nat} {trace : List Event}
  {s : State} {p : Processor}

/-- A processor that tracks a machine is in the state that it should be in. -/
theorem Checked.Tracks.atLine (hwell : checked.WellFormed) (hnumeric : checked.IsNumeric)
    (hhistory : History checked.program checked.scope (.start checked.scope input room) trace s)
    (h : checked.Tracks s p) : checked.AtLine s p where
  control_eq := h.control_eq
  cells_eq symbol hsymbol := by
    have hupper := hwell.isGlobal.upper_eq symbol hsymbol
    have htype : checked.scope.typeOf? symbol.name = some symbol.type := by
      rw [hwell.isGlobal.typeOf?_eq_some_iff, hupper]
      exact hsymbol
    obtain ⟨v, hv, hvtype⟩ :=
      exists_get?_of_typeOf? hwell.isGlobal (hwell.symbols_eq hhistory) htype
    rw [hnumeric.numbers hwell symbol hsymbol] at hvtype
    rcases v.eq_integer_of_type hvtype with ⟨n, rfl⟩
    have hlookup : s.store.lookup (upper symbol.name) = some (.integer n) := hv
    rw [hupper] at hlookup
    exact ⟨n, hv, h.mirrors _ _ hlookup⟩
  stack_eq := h.stack_eq
  returns r hr := by
    obtain ⟨i, line, t, rfl, hline, hcore⟩ :=
      Checked.WellFormed.returns_behind_gosub hhistory r hr
    exact ⟨i, line, t, rfl, hline, hcore, getElem?_call hwell hline hcore⟩

/-- From its start, the code only comes to what a run comes to, unless the output of the machine
is full. -/
theorem matches_of_isFresh {p₀ : Processor} (hwell : checked.WellFormed)
    (hnumeric : checked.IsNumeric)
    (hnever : checked.NeverDivides (.start checked.scope input room) (-32768) 1)
    (hfresh : p₀.IsFresh checked.listing)
    (hreturns : ∀ n number s,
      (runFor checked.program checked.scope n).run (.start checked.scope input room) ≠
        .error (.onLine number .emptyStack) s)
    {k : Nat} {seen : List Observation} (hsteps : Steps checked.listing k p₀ seen p) :
    checked.IsRefused (.start checked.scope input room) ∨
      checked.Matches (.start checked.scope input room) seen p := by
  rcases exists_tracks_start hwell hfresh input room with ⟨n, m, hpreamble, htracks⟩
  rcases Nat.lt_or_ge k n with hlt | hge
  · exact .inr (matches_of_lt hpreamble (by simp) hsteps hlt)
  · rcases Nat.exists_eq_add_of_le hge with ⟨d, rfl⟩
    rcases hsteps.split with ⟨middle, first, later, rfl, hthrough, hlater⟩
    rcases hpreamble.unique hthrough with ⟨rfl, rfl⟩
    exact matches_of_steps hwell hnumeric hnever hreturns .start htracks hlater

end Main

/-- Generated code simulates the machine.  This holds for every accepted text that declares no
variables for texts and reads no input, if no run returns without a call and none comes to the
division of -32768 by 1; the output of the machine may have a limit, behind which only the code goes
on.  If a run comes to this division, the code follows it up to there and stops. -/
theorem generated_code_simulates {source : String} {checked : Checked}
    (h : check source = .ok checked) (hnumeric : checked.IsNumeric) (input : List UInt8)
    (room : Option Nat) {start : State} (hstart : start = .start checked.scope input room)
    (hreturns : ∀ n number s, (runFor checked.program checked.scope n).run start ≠
      .error (.onLine number .emptyStack) s)
    {p₀ : Processor} (hfresh : p₀.IsFresh checked.listing) :
    (checked.NeverDivides start (-32768) 1 → checked.Simulation start p₀) ∧
      (¬ checked.NeverDivides start (-32768) 1 → checked.StopsInside start p₀) := by
  subst hstart
  have hwell := Checked.wellFormed_of_check h
  refine ⟨fun hnever => ?_, stopsInside_of_not_neverDivides hwell hnumeric hfresh⟩
  constructor
  · intro trace s hhistory hok
    obtain ⟨seen, k, p, hnarrative, hsteps, htracks⟩ :=
      exists_tracks_of_history hwell hnumeric hnever hfresh hhistory hok
    exact ⟨seen, k, p, hnarrative, hsteps, htracks.atLine hwell hnumeric hhistory⟩
  · intro k seen p i line hline hsteps hcontrol
    refine (matches_of_isFresh hwell hnumeric hnever hfresh hreturns hsteps).imp_right
      fun hmatches => ?_
    rcases hmatches.at_line i line hline hcontrol with ⟨trace, s, hnarrative, hnext, htracks⟩
    exact ⟨trace, s, hnarrative, hnext, htracks.atLine hwell hnumeric hnarrative.history⟩
  · intro trace seen s hnarrative
    exact written_of_narrative hnarrative
  · intro r hends
    exact exists_handed_of_endsWith hwell hnumeric hnever hfresh hends
  · intro k seen p r hsteps hhanded
    exact (matches_of_isFresh hwell hnumeric hnever hfresh hreturns hsteps).imp_right
      fun hmatches => hmatches.handed r hhanded

/-- The code of a program that calls a line to print comes back, prints and ends. -/
theorem called_line_prints :
    ∃ checked k seen p,
      check "10 GOSUB 30\r\n20 END\r\n30 PRINT 7 / 2\r\n40 RETURN" = .ok checked ∧
      Steps checked.listing k (.fresh checked.listing) seen p ∧
      p.control = .handed .terminateProgram ∧ seen.flatMap Observation.bytes = encode "3\n" := by
  let checked : Checked :=
    ⟨⟨[⟨10, .gosub 30⟩, ⟨20, .stop⟩, ⟨30, .print [.binary .div (.number 7) (.number 2)]⟩,
      ⟨40, .ret⟩]⟩, ⟨⟨"GLOBAL", []⟩, []⟩⟩
  let s : State :=
    { store := [], next := none, line := some 20, output := ⟨#[51, 10], none⟩ }
  have hcheck : check "10 GOSUB 30\r\n20 END\r\n30 PRINT 7 / 2\r\n40 RETURN" = .ok checked := by
    cbv
  have hrun : (runFor checked.program checked.scope 4).run (.start checked.scope [] none) =
      .ok true s := by cbv
  have hnumeric : checked.IsNumeric := by
    constructor <;> intro line hline <;> simp [checked] at hline <;>
      rcases hline with rfl | rfl | rfl | rfl <;> simp [Stmt.core]
  have hreturns : ∀ n number s, (runFor checked.program checked.scope n).run
      (.start checked.scope [] none) ≠ .error (.onLine number .emptyStack) s := by
    intro n number s hfail
    rcases runFor_eq_ok_of_ended hrun n with ⟨ended, m, hok⟩
    rw [hok] at hfail
    cases hfail
  have hnever : checked.NeverDivides (.start checked.scope [] none) (-32768) 1 := by
    rintro trace s - - ⟨i, line, -, hline, hdivides⟩
    have hmem := List.mem_of_getElem? hline
    have hseven : evalNumber s.store (.number 7) = .ok 7 := rfl
    simp [checked] at hmem
    rcases hmem with rfl | rfl | rfl | rfl <;>
      simp [Stmt.Divides, ItemsDivide, Expr.Divides, hseven] at hdivides
  have hsimulation := (generated_code_simulates hcheck hnumeric [] none rfl hreturns
    (Processor.isFresh_fresh checked.listing)).1 hnever
  rcases history_of_runFor_eq_ok hrun with ⟨trace, hhistory, hok, -⟩
  rcases hsimulation.follows trace s hhistory hok with ⟨seen, k, p, hnarrative, hsteps, hat⟩
  have hwritten := hsimulation.prints trace seen s hnarrative
  have hbytes : [51, 10] = encode "3\n" := by cbv
  exact ⟨checked, k, seen, p, hcheck, hsteps, hat.control_eq, hwritten.symm.trans hbytes⟩

/-- The machine prints the least number divided by 1 and ends, while the code comes to no end. -/
theorem least_number_not_printed :
    ∃ checked s, check "10 PRINT (0 - 32767 - 1) / 1\r\n20 END" = .ok checked ∧
      checked.IsNumeric ∧
      (runFor checked.program checked.scope 2).run (.start checked.scope [] none) = .ok true s ∧
      s.output.written.toList = encode "-32768\n" ∧
      ∀ k seen p r, Steps checked.listing k (.fresh checked.listing) seen p →
        p.control ≠ .handed r := by
  let quotient : Expr := .binary .div
    (.binary .sub (.binary .sub (.number 0) (.number 32767)) (.number 1)) (.number 1)
  let checked : Checked := ⟨⟨[⟨10, .print [quotient]⟩, ⟨20, .stop⟩]⟩, ⟨⟨"GLOBAL", []⟩, []⟩⟩
  let s : State :=
    { store := [], next := none, line := some 20,
      output := ⟨(encode "-32768\n").toArray, none⟩ }
  have hcheck : check "10 PRINT (0 - 32767 - 1) / 1\r\n20 END" = .ok checked := by cbv
  have hrun : (runFor checked.program checked.scope 2).run (.start checked.scope [] none) =
      .ok true s := by cbv
  have hnumeric : checked.IsNumeric := by
    constructor <;> intro line hline <;> simp [checked] at hline <;>
      rcases hline with rfl | rfl <;> simp [Stmt.core]
  have hdivides : ¬ checked.NeverDivides (.start checked.scope [] none) (-32768) 1 := by
    intro hnever
    refine hnever [] _ .refl (by simp) ⟨0, _, rfl, rfl, .inl (.inr ⟨rfl, ?_, ?_⟩)⟩
    · cbv
    · cbv
  obtain ⟨_, _, _, _, _, _, _, _, -, -, -, -, -, -, hend⟩ :=
    stopsInside_of_not_neverDivides (Checked.wellFormed_of_check hcheck) hnumeric
      (Processor.isFresh_fresh checked.listing) hdivides
  exact ⟨checked, s, hcheck, hnumeric, hrun, rfl,
    fun k seen p r hsteps => (hend k seen p hsteps).2 r⟩

end LineBasic
