import LineBasic.Proofs.Machine.Calls
import LineBasic.Proofs.Machine.TypeSoundness

/-!
# Control flow

A run of a checked program never leaves the program but at its end, lands where its jumps say,
and comes back to where it was called from.  This covers all histories from the start, and with
them any number of runs, those that go on behind an error included.

Main definition:

- `ControlFlow`: what is known of the place that a machine has come to.

Main results:

- `Checked.WellFormed.next_le` and `Checked.WellFormed.returns_behind_gosub`: the places a
  machine can be at, and those it can come back to.
- `runTimes_of_ended` and `runTimes_of_passed`: nothing happens at the end of a program.
- `control_flow`: all of this for all histories of an accepted text.
-/

namespace LineBasic

open Machine

namespace Machine

variable {program : Program} {scope : Scope}

/-! ## The end of a program -/

/-- No line is executed once the program has ended. -/
theorem runFor_of_ended {s : State} (h : s.next = none) (n : Nat) :
    (runFor program scope n).run s = .ok true s := by
  cases n with
  | zero =>
    change EStateM.Result.ok s.next.isNone s = _
    rw [h]
    rfl
  | succ n => simp [runFor, h]

/-- Behind the last line there is nothing to execute. -/
theorem runFor_of_passed {s : State} (h : s.next = some program.lines.length) (n : Nat) :
    (runFor program scope (n + 1)).run s = .error (.pcOutOfRange s.line) s := by
  have hstep : (step program scope program.lines.length).run s =
      .error (.pcOutOfRange s.line) s := by
    rw [run_step, List.getElem?_eq_none (Nat.le_refl _)]
  simp [runFor, h, hstep]

/-- A run that ends fails at no number of lines. -/
theorem runFor_eq_ok_of_ended {k : Nat} {s s' : State}
    (h : (runFor program scope k).run s = .ok true s') (n : Nat) :
    ∃ ended m, (runFor program scope n).run s = .ok ended m := by
  rcases history_of_runFor_eq_ok h with ⟨trace, hhistory, hok, hended⟩
  have hnext : s'.next = none := Option.isNone_iff_eq_none.1 hended.symm
  rcases Nat.le_total trace.length n with hle | hle
  · rcases Nat.exists_eq_add_of_le hle with ⟨d, rfl⟩
    exact ⟨true, s', by rw [runFor_of_history hhistory hok, runFor_of_ended hnext]⟩
  · rw [← List.take_append_drop n trace] at hhistory
    rcases hhistory.exists_of_append with ⟨m, hfirst, -⟩
    have hrun :=
      runFor_of_history hfirst (fun event hevent => hok event (List.mem_of_mem_take hevent)) 0
    rw [List.length_take, Nat.min_eq_left hle] at hrun
    exact ⟨_, m, hrun⟩

/-- A program that has ended stays so, whatever the number of runs. -/
theorem runTimes_of_ended {s : State} (h : s.next = none) (k : Nat) :
    runTimes program scope k s = (List.replicate k (.ok true), s) := by
  induction k with
  | zero => rfl
  | succ k ih =>
    have hrun : (run program scope).run s = .ok true s := runFor_of_ended h _
    simp only [runTimes, hrun, ih, List.replicate_succ]

/-- A machine that has passed the last line stays there, whatever the number of runs. -/
theorem runTimes_of_passed {s : State} (h : s.next = some program.lines.length) (k : Nat) :
    runTimes program scope k s = (List.replicate k (.error (.pcOutOfRange s.line)), s) := by
  induction k with
  | zero => rfl
  | succ k ih =>
    have hlimit : lineLimit = (Nat.pow 2 62 - 1) + 1 := rfl
    have hrun : (run program scope).run s = .error (.pcOutOfRange s.line) s := by
      rw [run, hlimit]
      exact runFor_of_passed h _
    simp only [runTimes, hrun, ih, List.replicate_succ]

/-! ## Control flow of a state -/

/-- What is known of the place that a machine has come to by the events of a trace. -/
structure ControlFlow (program : Program) (scope : Scope) (trace : List Event) (s : State) :
    Prop where
  /-- A machine that has not ended is at a line, or just behind the last one. -/
  next_le : ∀ i, s.next = some i → i ≤ program.lines.length
  /-- It comes back only behind lines that jump with return. -/
  returns_behind_gosub : ∀ r ∈ s.returns, ∃ i line t, r = i + 1 ∧
    program.lines[i]? = some line ∧ line.stmt.core = .gosub t
  /-- Behind a jump it is at the one line with the number of the target. -/
  jump_lands : ∀ earlier last t, trace = earlier ++ [last] →
    last.stmt = .goto t ∨ last.stmt = .gosub t →
    last.error = none ∧ ∃ i line, s.next = some i ∧ program.lines[i]? = some line ∧
      line.number = t ∧
      ∀ j other, program.lines[j]? = some other → other.number = t → j = i
  /-- Behind a return it is behind the line with the call that the return closes. -/
  return_lands : ∀ earlier call inner last, trace = earlier ++ call :: (inner ++ [last]) →
    call.isCall = true → Balanced inner → last.isReturn = true → s.next = some (call.index + 1)
  /-- A return that succeeds closes a call. -/
  return_closes : ∀ earlier last, trace = earlier ++ [last] → last.isReturn = true →
    ∃ before call inner, earlier = before ++ call :: inner ∧ call.isCall = true ∧ Balanced inner
  /-- There is nowhere to come back to exactly if a return finds no open call. -/
  emptyStack_iff : ∀ earlier last, trace = earlier ++ [last] →
    ((∃ number, last.error = some (.onLine number .emptyStack)) ↔
      last.stmt = .ret ∧ ¬ HasOpenCall earlier)
  /-- No line fails for being out of the program. -/
  inRange : ∀ event ∈ trace, ∀ number, event.error ≠ some (.pcOutOfRange number)
  /-- The program is left exactly by going on behind the last line. -/
  outOfRange_iff : (∃ number s', (runFor program scope 1).run s =
    .error (.pcOutOfRange number) s') ↔ s.next = some program.lines.length
  /-- Further runs of a program that has ended do nothing. -/
  ended : s.next = none → ∀ k, runTimes program scope k s = (List.replicate k (.ok true), s)
  /-- Further runs behind the last line do nothing. -/
  passed : s.next = some program.lines.length →
    ∀ k, runTimes program scope k s = (List.replicate k (.error (.pcOutOfRange s.line)), s)

/-- No statement fails for being out of the program. -/
theorem Fails.ne_pcOutOfRange {stmt : Stmt} {s s' : State} {number : Option Int16} :
    ¬ Fails scope s stmt (.pcOutOfRange number) s' := by
  intro h
  generalize he : RuntimeError.pcOutOfRange number = e at h
  cases h with
  | @inputText _ cause | @inputNumber _ cause => cases cause <;> cases he
  | _ => cases he

/-- Only a line that is not there fails for being out of the program. -/
theorem Advance.error_ne_pcOutOfRange {s s' : State} {event : Event}
    (h : Advance program scope s event s') (number : Option Int16) :
    event.error ≠ some (.pcOutOfRange number) := by
  rcases h.performs_or_fails with ⟨line, -, -, -, ⟨hnone, -⟩ | ⟨e, herror, hfails⟩⟩
  · rw [hnone]
    simp
  · rw [herror]
    rintro ⟨⟩
    exact hfails.ne_pcOutOfRange

end Machine

/-! ## Checked programs -/

namespace Checked.WellFormed

variable {checked : Checked} {input : List UInt8} {room : Option Nat}

/-- What a line of a program comes to is a place in the program, if its returns are. -/
theorem next_le_advance (h : checked.WellFormed) {s s' : State} {event : Event}
    (hreturns : ∀ r ∈ s.returns, r ≤ checked.program.lines.length)
    (hadvance : Advance checked.program checked.scope s event s') :
    ∀ i, s'.next = some i → i ≤ checked.program.lines.length := by
  rcases hadvance.performs_or_fails with ⟨line, -, hline, -, ⟨-, hperforms⟩ | ⟨e, -, hfails⟩⟩
  · have hinside := (List.getElem?_eq_some_iff.1 hline).1
    have hfound {t : Int16} {j : Nat} (hfind : findLine? checked.program t = some j) :
        j < checked.program.lines.length := by
      rcases h.numbered.findLine?_eq_some_iff.1 hfind with ⟨target, htarget, -⟩
      exact (List.getElem?_eq_some_iff.1 htarget).1
    generalize event.stmt = stmt at hperforms
    intro i hi
    cases hperforms with
    | goto hfind | gosub hfind =>
      cases hi
      exact Nat.le_of_lt (hfound hfind)
    | ret hsome =>
      cases hi
      exact hreturns _ (hsome ▸ List.mem_cons_self)
    | stop => cases hi
    | _ =>
      cases hi
      exact hinside
  · intro i hi
    rw [hfails.next_eq] at hi
    cases hi
    exact (List.getElem?_eq_some_iff.1 hline).1

/-- Every place to come back to is behind a line that jumps with return. -/
theorem returns_behind_gosub_advance {s s' : State} {event : Event}
    (hreturns : ∀ r ∈ s.returns, ∃ i line t, r = i + 1 ∧
      checked.program.lines[i]? = some line ∧ line.stmt.core = .gosub t)
    (hadvance : Advance checked.program checked.scope s event s') :
    ∀ r ∈ s'.returns, ∃ i line t, r = i + 1 ∧
      checked.program.lines[i]? = some line ∧ line.stmt.core = .gosub t := by
  rcases hadvance.performs_or_fails with ⟨line, -, hline, hstmt, ⟨-, hperforms⟩ | ⟨e, -, hfails⟩⟩
  · generalize event.stmt = stmt at hperforms hstmt
    cases hperforms with
    | @gosub t j hfind =>
      intro r hr
      rcases List.mem_cons.1 hr with rfl | hmem
      · rcases line.stmt.active_eq_core_or s.store with hcore | ⟨lhs, op, rhs, body, hcond⟩
        · exact ⟨event.index, line, t, rfl, hline, by rw [← hcore, ← hstmt]⟩
        · rw [hcond] at hstmt
          cases hstmt
      · exact hreturns r hmem
    | ret hsome =>
      intro r hr
      exact hreturns r (hsome ▸ List.mem_cons_of_mem _ hr)
    | _ => exact hreturns
  · rw [hfails.returns_eq]
    exact hreturns

section Histories

variable {trace : List Event} {s : State}

/-- A machine comes back only behind lines that jump with return. -/
theorem returns_behind_gosub
    (h : History checked.program checked.scope (.start checked.scope input room) trace s) :
    ∀ r ∈ s.returns, ∃ i line t, r = i + 1 ∧
      checked.program.lines[i]? = some line ∧ line.stmt.core = .gosub t := by
  refine h.invariant (P := fun s => ∀ r ∈ s.returns, ∃ i line t, r = i + 1 ∧
    checked.program.lines[i]? = some line ∧ line.stmt.core = .gosub t) ?_ ?_
  · intro r hr
    cases hr
  · intro m event m' hm hadvance
    exact returns_behind_gosub_advance hm hadvance

/-- A machine that has not ended is at a line, or just behind the last one. -/
theorem next_le (hwell : checked.WellFormed)
    (h : History checked.program checked.scope (.start checked.scope input room) trace s) :
    ∀ i, s.next = some i → i ≤ checked.program.lines.length := by
  cases h with
  | refl =>
    rintro i ⟨⟩
    exact Nat.zero_le _
  | snoc hearlier hlast =>
    refine hwell.next_le_advance ?_ hlast
    intro r hr
    rcases returns_behind_gosub hearlier r hr with ⟨i, line, t, rfl, hline, -⟩
    exact (List.getElem?_eq_some_iff.1 hline).1

/-- Behind a jump a machine is at the one line with the number of the target. -/
theorem jump_lands (hwell : checked.WellFormed) {last : Event} {m m' : State} {t : Int16}
    (hlast : Advance checked.program checked.scope m last m')
    (hjump : last.stmt = .goto t ∨ last.stmt = .gosub t) :
    last.error = none ∧ ∃ i line, m'.next = some i ∧ checked.program.lines[i]? = some line ∧
      line.number = t ∧
      ∀ j other, checked.program.lines[j]? = some other → other.number = t → j = i := by
  rcases hlast.performs_or_fails with ⟨line, -, hline, hstmt, hrest⟩
  have hactive : line.stmt.active m.store = .goto t ∨ line.stmt.active m.store = .gosub t := by
    rwa [← hstmt]
  rcases hwell.numbered.exists_findLine? (List.mem_of_getElem? hline) hactive with ⟨i, hi⟩
  rcases hwell.numbered.findLine?_eq_some_iff.1 hi with ⟨target, htarget, hnumber⟩
  have hunique : ∀ j other, checked.program.lines[j]? = some other → other.number = t → j = i :=
    fun j other hother heq => hwell.numbered.eq_of_number_eq hother htarget (heq.trans hnumber.symm)
  have hnext : last.error = none ∧ m'.next = some i := by
    rcases hrest with ⟨hnone, hperforms⟩ | ⟨e, -, hfails⟩
    · refine ⟨hnone, ?_⟩
      rcases hjump with hjump | hjump
      · rw [hjump] at hperforms
        cases hperforms with
        | goto hfind =>
          rw [hi] at hfind
          cases hfind
          rfl
        | goNowhere hfind =>
          rw [hi] at hfind
          cases hfind
      · rw [hjump] at hperforms
        cases hperforms with
        | gosub hfind =>
          rw [hi] at hfind
          cases hfind
          rfl
        | callNowhere hfind =>
          rw [hi] at hfind
          cases hfind
    · rcases hjump with hjump | hjump <;> rw [hjump] at hfails <;> cases hfails
  exact ⟨hnext.1, i, target, hnext.2, htarget, hnumber, hunique⟩

/-- There is nowhere to come back to exactly if a return finds no open call. -/
theorem emptyStack_iff (hwell : checked.WellFormed) {last : Event} {m : State}
    (h : History checked.program checked.scope (.start checked.scope input room) trace s)
    (hlast : Advance checked.program checked.scope s last m) :
    (∃ number, last.error = some (.onLine number .emptyStack)) ↔
      last.stmt = .ret ∧ ¬ HasOpenCall trace := by
  rw [← h.returns_eq_nil_iff hwell.numbered rfl]
  rcases hlast.performs_or_fails with ⟨line, -, hline, hstmt, hrest⟩
  constructor
  · rintro ⟨number, hempty⟩
    rcases hrest with ⟨hnone, -⟩ | ⟨e, he, hfails⟩
    · rw [hempty] at hnone
      cases hnone
    · rw [hempty] at he
      cases he
      have htyped := (hwell.typed line (List.mem_of_getElem? hline)).active s.store
      rw [← hstmt] at htyped
      have hsymbols := hwell.symbols_eq h
      have hstore : (s.enter last.index line).store.symbols = checked.scope.symbols := hsymbols
      have hret : last.stmt = .ret := by
        rcases hfails.error_cases hwell.isGlobal htyped hstore with
          ⟨fault, hfault, (rfl | rfl) | ⟨-, hret⟩ | rfl⟩ | ⟨cause, hstream⟩ | ⟨htexts, -⟩
        · cases hfault
        · cases hfault
        · exact hret
        · cases hfault
        · cases hstream
        · cases htexts
      rw [hret] at hfails
      cases hfails with
      | ret hreturns => exact ⟨hret, hreturns⟩
  · rintro ⟨hret, hreturns⟩
    rcases hrest with ⟨-, hperforms⟩ | ⟨e, he, hfails⟩
    · rw [hret] at hperforms
      cases hperforms with
      | ret hsome =>
        rw [State.returns_enter, hreturns] at hsome
        cases hsome
    · rw [hret] at hfails
      cases hfails
      exact ⟨line.number, he⟩

/-- The program is left exactly by going on behind the last line. -/
theorem outOfRange_iff (hwell : checked.WellFormed)
    (h : History checked.program checked.scope (.start checked.scope input room) trace s) :
    (∃ number s', (runFor checked.program checked.scope 1).run s =
      .error (.pcOutOfRange number) s') ↔ s.next = some checked.program.lines.length := by
  constructor
  · rintro ⟨number, s', hrun⟩
    rw [runFor, run_bind_eq_error_iff] at hrun
    obtain hget | ⟨_, _, hget, hrun⟩ := hrun
    · cases hget
    cases hget
    split at hrun
    · cases hrun
    · rename_i i hnext
      rcases run_bind_eq_error_iff.1 hrun with hstep | ⟨_, m, -, hlast⟩
      · rcases run_step_eq_error_iff.1 hstep with ⟨hnone, -, -⟩ | ⟨line, -, hfails⟩
        · have hbehind := List.getElem?_eq_none_iff.1 hnone
          have hinside := hwell.next_le h i hnext
          rw [hnext, Nat.le_antisymm hinside hbehind]
        · exact absurd hfails Fails.ne_pcOutOfRange
      · cases hlast
  · intro hnext
    exact ⟨_, _, runFor_of_passed hnext 0⟩

/-- All that is known of the control flow holds in every state of a checked program. -/
theorem controlFlow (hwell : checked.WellFormed)
    (h : History checked.program checked.scope (.start checked.scope input room) trace s) :
    ControlFlow checked.program checked.scope trace s where
  next_le := hwell.next_le h
  returns_behind_gosub := returns_behind_gosub h
  jump_lands := by
    rintro earlier last t rfl hjump
    rcases h.exists_of_append with ⟨m, -, hlast⟩
    exact hwell.jump_lands hlast.advance_of_singleton hjump
  return_lands := by
    rintro earlier call inner last rfl hcall hinner hreturn
    exact h.next_of_return hwell.numbered hcall hinner hreturn
  return_closes := by
    rintro earlier last rfl hreturn
    exact h.exists_call_of_return hwell.numbered rfl hreturn
  emptyStack_iff := by
    rintro earlier last rfl
    rcases h.exists_of_append with ⟨m, hearlier, hlast⟩
    exact hwell.emptyStack_iff hearlier hlast.advance_of_singleton
  inRange := by
    intro event hevent number
    rcases List.append_of_mem hevent with ⟨before, after, rfl⟩
    rcases h.exists_of_append with ⟨m, -, hafter⟩
    rcases hafter.exists_of_cons with ⟨m', hfirst, -⟩
    exact hfirst.error_ne_pcOutOfRange number
  outOfRange_iff := hwell.outOfRange_iff h
  ended := fun hnext k => runTimes_of_ended hnext k
  passed := fun hnext k => runTimes_of_passed hnext k

end Histories

end Checked.WellFormed

/-- Control flow.  Any number of runs of an accepted text on any input, with any number of lines
of one more run, has a history, whose last event tells the error if there is one; and in every
state that a history leads to, all is known that `ControlFlow` says. -/
theorem control_flow {source : String} {checked : Checked} (h : check source = .ok checked)
    (input : List UInt8) (room : Option Nat) {start : State}
    (hstart : start = .start checked.scope input room) :
    (∀ k n before, before = (runTimes checked.program checked.scope k start).2 →
      (∀ ended s, (runFor checked.program checked.scope n).run before = .ok ended s →
        ∃ trace, History checked.program checked.scope start trace s ∧
          (ended = true ↔ s.next = none)) ∧
      ∀ e s, (runFor checked.program checked.scope n).run before = .error e s →
        ∃ trace, History checked.program checked.scope start trace s ∧
          ((e = .pcOutOfRange s.line ∧ s.next = some checked.program.lines.length) ∨
            ∃ earlier last, trace = earlier ++ [last] ∧ last.error = some e)) ∧
    ∀ trace s, History checked.program checked.scope start trace s →
      ControlFlow checked.program checked.scope trace s := by
  subst hstart
  have hwell := Checked.wellFormed_of_check h
  refine ⟨?_, fun trace s hhistory => hwell.controlFlow hhistory⟩
  rintro k n _ rfl
  obtain ⟨first, hfirst⟩ := history_of_runTimes checked.program checked.scope k
    (.start checked.scope input room)
  constructor
  · intro ended s hrun
    rcases history_of_runFor_eq_ok hrun with ⟨later, hlater, -, rfl⟩
    exact ⟨first ++ later, hfirst.trans hlater, by simp⟩
  · intro e s hrun
    rcases history_of_runFor_eq_error hrun with ⟨later, hlater, hend⟩
    refine ⟨first ++ later, hfirst.trans hlater, ?_⟩
    rcases hend with ⟨earlier, last, rfl, hlast, -⟩ | ⟨-, hout, i, hnext, hnone⟩
    · exact .inr ⟨first ++ earlier, last, (List.append_assoc ..).symm, hlast⟩
    · have hinside := hwell.next_le (hfirst.trans hlater) i hnext
      have hbehind := List.getElem?_eq_none_iff.1 hnone
      exact .inl ⟨hout, by rw [hnext, Nat.le_antisymm hinside hbehind]⟩

/-- A return that is not called for stops the run, though one before it was. -/
theorem uncalled_return_stops :
    ∃ checked s trace earlier last,
      check "10 GOSUB 30\r\n20 RETURN\r\n30 RETURN" = .ok checked ∧
      (runFor checked.program checked.scope 3).run (.start checked.scope [] none) =
        .error (.onLine 20 .emptyStack) s ∧
      History checked.program checked.scope (.start checked.scope [] none) trace s ∧
      trace = earlier ++ [last] ∧ last.stmt = .ret ∧ ¬ HasOpenCall earlier := by
  let checked : Checked :=
    ⟨⟨[⟨10, .gosub 30⟩, ⟨20, .ret⟩, ⟨30, .ret⟩]⟩, ⟨⟨"GLOBAL", []⟩, []⟩⟩
  have hcheck : check "10 GOSUB 30\r\n20 RETURN\r\n30 RETURN" = .ok checked := by cbv
  have hrun : (runFor checked.program checked.scope 3).run (.start checked.scope [] none) =
      .error (.onLine 20 .emptyStack) { store := [], next := some 2, line := some 20 } := by cbv
  rcases control_flow hcheck [] none rfl with ⟨hruns, hflow⟩
  obtain ⟨trace, hhistory, ⟨hout, -⟩ | ⟨earlier, last, htrace, hlast⟩⟩ :=
    (hruns 0 3 _ rfl).2 _ _ hrun
  · cases hout
  · have hempty := ((hflow trace _ hhistory).emptyStack_iff earlier last htrace).1 ⟨20, hlast⟩
    exact ⟨checked, _, trace, earlier, last, hcheck, hrun, hhistory, htrace, hempty⟩

end LineBasic
