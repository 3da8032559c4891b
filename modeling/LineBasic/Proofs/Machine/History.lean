import LineBasic.Proofs.Machine.Console
import LineBasic.Proofs.Machine.Execution

/-!
# Histories of runs

A history lists what happened on one line after the other.  It goes on behind an error, as a
machine does that is run again, so that any number of runs in a row has one history.

Main definitions:

- `Event`: what happened on a line.
- `Advance`: a machine executes the line that it is at.
- `History`: a machine gets from one state to another.

Main results:

- `Advance.performs_or_fails`: a line goes by the rules of its statement.
- `Advance.output_cases`: what it does to the output.
- `History.invariant`: what every line keeps holds in every state.
- `history_of_runFor_eq_ok` and `history_of_runFor_eq_error`: runs have histories.
- `history_of_runTimes`: so have any number of runs in a row.
- `runFor_of_history`: histories without errors are those of runs.
-/

namespace LineBasic.Machine

variable {program : Program} {scope : Scope}

/-! ## Lines -/

/-- The state in which the statement of a line is executed: the machine has moved on already. -/
def State.enter (s : State) (i : Nat) (line : Line) : State :=
  { s with line := some line.number, next := some (i + 1) }

@[simp] theorem State.store_enter (s : State) (i : Nat) (line : Line) :
    (s.enter i line).store = s.store :=
  rfl

@[simp] theorem State.returns_enter (s : State) (i : Nat) (line : Line) :
    (s.enter i line).returns = s.returns :=
  rfl

@[simp] theorem State.next_enter (s : State) (i : Nat) (line : Line) :
    (s.enter i line).next = some (i + 1) :=
  rfl

@[simp] theorem State.input_enter (s : State) (i : Nat) (line : Line) :
    (s.enter i line).input = s.input :=
  rfl

@[simp] theorem State.output_enter (s : State) (i : Nat) (line : Line) :
    (s.enter i line).output = s.output :=
  rfl

/-- The fault of a statement is reported with the number of its line. -/
@[simp] theorem State.blame_enter (s : State) (i : Nat) (line : Line) (fault : Fault) :
    (s.enter i line).blame fault = .onLine line.number fault :=
  rfl

/-- The execution of a line is that of its statement, and fails if there is no line. -/
theorem run_step (i : Nat) (s : State) :
    (step program scope i).run s =
      match program.lines[i]? with
      | none => .error (.pcOutOfRange s.line) s
      | some line => (exec program scope line.stmt).run (s.enter i line) := by
  unfold step
  cases program.lines[i]? <;> rfl

/-- A line succeeds if its statement does. -/
theorem run_step_eq_ok_iff {i : Nat} {s s' : State} {u : Unit} :
    (step program scope i).run s = .ok u s' ↔
      ∃ line, program.lines[i]? = some line ∧
        Performs program scope (s.enter i line) (line.stmt.active s.store) s' := by
  rw [run_step]
  cases program.lines[i]? with
  | none => simp
  | some line => simp [run_exec_eq_ok_iff]

/-- A line fails if it is not there or if its statement fails. -/
theorem run_step_eq_error_iff {i : Nat} {s s' : State} {e : RuntimeError} :
    (step program scope i).run s = .error e s' ↔
      (program.lines[i]? = none ∧ e = .pcOutOfRange s.line ∧ s' = s) ∨
        ∃ line, program.lines[i]? = some line ∧
          Fails scope (s.enter i line) (line.stmt.active s.store) e s' := by
  rw [run_step]
  cases program.lines[i]? with
  | none => simp [eq_comm]
  | some line => simp [run_exec_eq_error_iff]

/-! ## Events and histories -/

/-- What happened on a line: where it is, the statement that its conditions came down to, and
how that failed if it did. -/
structure Event where
  index : Nat
  stmt : Stmt
  error : Option RuntimeError := none
deriving DecidableEq, Repr

/-- A machine executes the line that it is at, with success or without. -/
inductive Advance (program : Program) (scope : Scope) (s : State) : Event → State → Prop
  | ok {i : Nat} {line : Line} {s' : State} (hnext : s.next = some i)
      (hline : program.lines[i]? = some line) (hstep : (step program scope i).run s = .ok () s') :
    Advance program scope s ⟨i, line.stmt.active s.store, none⟩ s'
  | error {i : Nat} {line : Line} {e : RuntimeError} {s' : State} (hnext : s.next = some i)
      (hline : program.lines[i]? = some line)
      (hstep : (step program scope i).run s = .error e s') :
    Advance program scope s ⟨i, line.stmt.active s.store, some e⟩ s'

/-- A machine gets from a state to another one by events in their order. -/
inductive History (program : Program) (scope : Scope) (s₀ : State) : List Event → State → Prop
  | refl : History program scope s₀ [] s₀
  | snoc {trace : List Event} {event : Event} {s s' : State}
      (hearlier : History program scope s₀ trace s) (hlast : Advance program scope s event s') :
    History program scope s₀ (trace ++ [event]) s'

/-- A line goes by the rules of its statement. -/
theorem Advance.performs_or_fails {s s' : State} {event : Event}
    (h : Advance program scope s event s') :
    ∃ line, s.next = some event.index ∧ program.lines[event.index]? = some line ∧
      event.stmt = line.stmt.active s.store ∧
      ((event.error = none ∧ Performs program scope (s.enter event.index line) event.stmt s') ∨
        ∃ e, event.error = some e ∧ Fails scope (s.enter event.index line) event.stmt e s') := by
  cases h with
  | @ok i line s' hnext hline hstep =>
    rcases run_step_eq_ok_iff.1 hstep with ⟨found, hfound, hperforms⟩
    rw [hline] at hfound
    cases hfound
    exact ⟨line, hnext, hline, rfl, .inl ⟨rfl, hperforms⟩⟩
  | @error i line e s' hnext hline hstep =>
    rcases run_step_eq_error_iff.1 hstep with ⟨hnone, -⟩ | ⟨found, hfound, hfails⟩
    · rw [hline] at hnone
      cases hnone
    · rw [hline] at hfound
      cases hfound
      exact ⟨line, hnext, hline, rfl, .inr ⟨e, rfl, hfails⟩⟩

/-- A line leaves the output alone, unless it prints: then a line of text is written, and all of it
exactly if there is no error. -/
theorem Advance.output_cases {s s' : State} {event : Event}
    (h : Advance program scope s event s') :
    s'.output = s.output ∨ ∃ items text complete, event.stmt = .print items ∧
      evalItems s.store items = .ok text ∧
      s.output.write (text ++ "\n") = (complete, s'.output) ∧
      (event.error = none ↔ complete = true) := by
  rcases h.performs_or_fails with ⟨line, -, -, -, ⟨hok, hperforms⟩ | ⟨e, herror, hfails⟩⟩
  · generalize hstmt : event.stmt = stmt at hperforms
    cases hperforms with
    | print heval hwrite =>
      exact .inr ⟨_, _, true, rfl, heval, hwrite, iff_of_true hok rfl⟩
    | _ => exact .inl rfl
  · generalize hstmt : event.stmt = stmt at hfails
    cases hfails with
    | output heval hwrite =>
      exact .inr ⟨_, _, false, rfl, heval, hwrite, by simp [herror]⟩
    | _ => exact .inl rfl

/-- Lines leave an output without a limit. -/
theorem Advance.room_eq_none {s s' : State} {event : Event}
    (h : Advance program scope s event s') (hroom : s.output.room = none) :
    s'.output.room = none := by
  rcases h.output_cases with heq | ⟨items, text, complete, -, -, hwrite, -⟩
  · rw [heq, hroom]
  · exact (Output.of_room_eq_none hroom hwrite).2

variable (scope) in
/-- A machine that is at a line can execute it. -/
theorem exists_advance {s : State} {i : Nat} {line : Line} (hnext : s.next = some i)
    (hline : program.lines[i]? = some line) :
    ∃ event s', Advance program scope s event s' ∧ event.index = i := by
  cases hstep : (step program scope i).run s with
  | ok u s' => exact ⟨_, s', .ok hnext hline hstep, rfl⟩
  | error e s' => exact ⟨_, s', .error hnext hline hstep, rfl⟩

namespace History

variable {s₀ : State}

/-- One line is a history. -/
theorem single {event : Event} {s : State} (h : Advance program scope s₀ event s) :
    History program scope s₀ [event] s :=
  snoc refl h

/-- A history goes on where another one ends. -/
theorem trans {earlier later : List Event} {s s' : State}
    (hearlier : History program scope s₀ earlier s) (hlater : History program scope s later s') :
    History program scope s₀ (earlier ++ later) s' := by
  induction hlater with
  | refl => simpa using hearlier
  | snoc _ hlast ih =>
    rw [← List.append_assoc]
    exact ih.snoc hlast

/-- A history can be cut in two anywhere. -/
theorem exists_of_append {earlier later : List Event} {s' : State}
    (h : History program scope s₀ (earlier ++ later) s') :
    ∃ s, History program scope s₀ earlier s ∧ History program scope s later s' := by
  generalize hall : earlier ++ later = trace at h
  induction h generalizing later with
  | refl =>
    rcases List.append_eq_nil_iff.1 hall with ⟨rfl, rfl⟩
    exact ⟨s₀, refl, refl⟩
  | @snoc trace event m m' hearlier hlast ih =>
    rcases List.eq_nil_or_concat later with rfl | ⟨rest, last, rfl⟩
    · rw [List.append_nil] at hall
      rw [hall]
      exact ⟨m', snoc hearlier hlast, refl⟩
    · rw [List.concat_eq_append, ← List.append_assoc] at hall
      rcases List.append_inj' hall rfl with ⟨hfront, hevent⟩
      cases hevent
      rcases ih hfront with ⟨s, hs, hrest⟩
      rw [List.concat_eq_append]
      exact ⟨s, hs, snoc hrest hlast⟩

/-- A history of one event is one line. -/
theorem advance_of_singleton {event : Event} {s : State}
    (h : History program scope s₀ [event] s) : Advance program scope s₀ event s := by
  generalize htrace : [event] = trace at h
  cases h with
  | refl => cases htrace
  | @snoc front last m m' hearlier hlast =>
    have hsplit : [] ++ [event] = front ++ [last] := htrace
    rcases List.append_inj' hsplit rfl with ⟨hfront, hevent⟩
    cases hevent
    subst hfront
    generalize hempty : ([] : List Event) = before at hearlier
    cases hearlier with
    | refl => exact hlast
    | snoc => simp at hempty

/-- A history begins with its first event. -/
theorem exists_of_cons {event : Event} {later : List Event} {s' : State}
    (h : History program scope s₀ (event :: later) s') :
    ∃ s, Advance program scope s₀ event s ∧ History program scope s later s' := by
  have hsplit : History program scope s₀ ([event] ++ later) s' := h
  rcases hsplit.exists_of_append with ⟨s, hfirst, hlater⟩
  exact ⟨s, hfirst.advance_of_singleton, hlater⟩

/-- What holds at the start and is kept by every line holds in every state of a history. -/
theorem invariant {P : State → Prop} (hstart : P s₀)
    (hkeep : ∀ s event s', P s → Advance program scope s event s' → P s')
    {trace : List Event} {s : State} (h : History program scope s₀ trace s) : P s := by
  induction h with
  | refl => exact hstart
  | snoc _ hlast ih => exact hkeep _ _ _ ih hlast

end History

/-! ## Runs -/

variable (program scope) in
/-- A run executes the line that it is at, and goes on behind it if that succeeds. -/
theorem run_runFor_succ (n : Nat) (s : State) :
    (runFor program scope (n + 1)).run s =
      match s.next with
      | none => .ok true s
      | some i =>
        match (step program scope i).run s with
        | .ok _ s' => (runFor program scope n).run s'
        | .error e s' => .error e s' := by
  rw [runFor]
  cases hnext : s.next with
  | none => simp [hnext]
  | some i => cases hstep : (step program scope i).run s <;> simp [hnext, hstep]

/-- A run that does not fail has a history without errors.  It has ended, or it has executed as many
lines as it may. -/
theorem exists_history_of_runFor_eq_ok {n : Nat} {s s' : State} {ended : Bool}
    (h : (runFor program scope n).run s = .ok ended s') :
    ∃ trace, History program scope s trace s' ∧ (∀ event ∈ trace, event.error = none) ∧
      ended = s'.next.isNone ∧ (s'.next = none ∨ trace.length = n) := by
  induction n generalizing s with
  | zero =>
    cases h
    exact ⟨[], .refl, by simp, rfl, .inr rfl⟩
  | succ n ih =>
    rw [runFor, run_bind_eq_ok_iff] at h
    rcases h with ⟨_, _, hget, h⟩
    cases hget
    split at h
    · rename_i hnext
      cases h
      exact ⟨[], .refl, by simp, by simp [hnext], .inl hnext⟩
    · rename_i i hnext
      rcases run_bind_eq_ok_iff.1 h with ⟨_, m, hstep, hrest⟩
      rcases run_step_eq_ok_iff.1 hstep with ⟨line, hline, -⟩
      rcases ih hrest with ⟨trace, hhistory, hclean, hended, hlength⟩
      refine ⟨[_] ++ trace, (History.single (.ok hnext hline hstep)).trans hhistory, ?_, hended,
        hlength.imp id fun h => by rw [List.length_append, h, List.length_singleton, Nat.add_comm]⟩
      intro event hevent
      rcases List.mem_cons.1 hevent with rfl | hmem
      · rfl
      · exact hclean event hmem

/-- A run that does not fail has a history without errors, and says whether it has ended. -/
theorem history_of_runFor_eq_ok {n : Nat} {s s' : State} {ended : Bool}
    (h : (runFor program scope n).run s = .ok ended s') :
    ∃ trace, History program scope s trace s' ∧ (∀ event ∈ trace, event.error = none) ∧
      ended = s'.next.isNone := by
  obtain ⟨trace, hhistory, hclean, hended, -⟩ := exists_history_of_runFor_eq_ok h
  exact ⟨trace, hhistory, hclean, hended⟩

/-- A run that fails has a history that ends with the error or in front of no line. -/
theorem history_of_runFor_eq_error {n : Nat} {s s' : State} {e : RuntimeError}
    (h : (runFor program scope n).run s = .error e s') :
    ∃ trace, History program scope s trace s' ∧
      ((∃ earlier last, trace = earlier ++ [last] ∧ last.error = some e ∧
          ∀ event ∈ earlier, event.error = none) ∨
        ((∀ event ∈ trace, event.error = none) ∧ e = .pcOutOfRange s'.line ∧
          ∃ i, s'.next = some i ∧ program.lines[i]? = none)) := by
  induction n generalizing s with
  | zero => cases h
  | succ n ih =>
    rw [runFor, run_bind_eq_error_iff] at h
    obtain hget | ⟨_, _, hget, h⟩ := h
    · cases hget
    cases hget
    split at h
    · cases h
    · rename_i i hnext
      rcases run_bind_eq_error_iff.1 h with hstep | ⟨_, m, hstep, hrest⟩
      · rcases run_step_eq_error_iff.1 hstep with ⟨hnone, rfl, rfl⟩ | ⟨line, hline, -⟩
        · exact ⟨[], .refl, .inr ⟨by simp, rfl, i, hnext, hnone⟩⟩
        · exact ⟨_, History.single (.error hnext hline hstep),
            .inl ⟨[], _, rfl, rfl, by simp⟩⟩
      · rcases run_step_eq_ok_iff.1 hstep with ⟨line, hline, -⟩
        have hfirst := History.single (.ok hnext hline hstep)
        have hclean : ∀ trace : List Event, (∀ event ∈ trace, event.error = none) →
            ∀ event ∈ Event.mk i (line.stmt.active s.store) none :: trace,
              event.error = none := by
          intro trace htrace event hevent
          rcases List.mem_cons.1 hevent with rfl | hmem
          · rfl
          · exact htrace event hmem
        rcases ih hrest with ⟨trace, hhistory, hend⟩
        refine ⟨_, hfirst.trans hhistory, ?_⟩
        rcases hend with ⟨earlier, last, rfl, hlast, hearlier⟩ | ⟨hall, he, hout⟩
        · exact .inl ⟨_ :: earlier, last, rfl, hlast, hclean earlier hearlier⟩
        · exact .inr ⟨hclean trace hall, he, hout⟩

/-- A run begins with a line that succeeds. -/
theorem Advance.runFor_of_ok {s s' : State} {event : Event}
    (h : Advance program scope s event s') (hok : event.error = none) (n : Nat) :
    (runFor program scope (n + 1)).run s = (runFor program scope n).run s' := by
  cases h with
  | ok hnext hline hstep => simp [runFor, hnext, hstep]
  | error => cases hok

/-- A run stops at a line that fails. -/
theorem Advance.runFor_of_error {s s' : State} {event : Event} {e : RuntimeError}
    (h : Advance program scope s event s') (herror : event.error = some e) (n : Nat) :
    (runFor program scope (n + 1)).run s = .error e s' := by
  cases h with
  | ok => cases herror
  | error hnext hline hstep =>
    cases herror
    simp [runFor, hnext, hstep]

/-- A run begins with a history without errors. -/
theorem runFor_of_history {trace : List Event} {s s' : State}
    (h : History program scope s trace s') (hok : ∀ event ∈ trace, event.error = none) (n : Nat) :
    (runFor program scope (trace.length + n)).run s = (runFor program scope n).run s' := by
  induction h generalizing n with
  | refl => rw [List.length_nil, Nat.zero_add]
  | @snoc trace event m m' _ hlast ih =>
    have hearlier : ∀ other ∈ trace, other.error = none :=
      fun other hother => hok other (List.mem_append_left _ hother)
    have hlastOk := hok event (List.mem_append_right _ (List.mem_singleton.2 rfl))
    rw [List.length_append, Nat.add_assoc, ih hearlier, List.length_singleton, Nat.add_comm 1 n]
    exact hlast.runFor_of_ok hlastOk n

variable (program scope) in
/-- Runs one after the other have one history. -/
theorem history_of_runTimes (n : Nat) (s : State) :
    ∃ trace, History program scope s trace (runTimes program scope n s).2 := by
  induction n generalizing s with
  | zero => exact ⟨[], .refl⟩
  | succ n ih =>
    rw [runTimes]
    split
    · rename_i ended m hrun
      rcases history_of_runFor_eq_ok hrun with ⟨first, hfirst, -⟩
      rcases ih m with ⟨later, hlater⟩
      exact ⟨first ++ later, hfirst.trans hlater⟩
    · rename_i e m hrun
      rcases history_of_runFor_eq_error hrun with ⟨first, hfirst, -⟩
      rcases ih m with ⟨later, hlater⟩
      exact ⟨first ++ later, hfirst.trans hlater⟩

/-- An error among the answers of runs is that of one run, which begins where a history ends. -/
theorem exists_run_of_error_mem {n : Nat} {s : State} {e : RuntimeError}
    (h : .error e ∈ (runTimes program scope n s).1) :
    ∃ trace m m', History program scope s trace m ∧ (run program scope).run m = .error e m' := by
  induction n generalizing s with
  | zero => cases h
  | succ n ih =>
    rw [runTimes] at h
    split at h
    · rename_i ended m hrun
      rcases history_of_runFor_eq_ok hrun with ⟨first, hfirst, -⟩
      rcases List.mem_cons.1 h with heq | hmem
      · cases heq
      · rcases ih hmem with ⟨later, m', m'', hlater, hfail⟩
        exact ⟨first ++ later, m', m'', hfirst.trans hlater, hfail⟩
    · rename_i e' m hrun
      rcases history_of_runFor_eq_error hrun with ⟨first, hfirst, -⟩
      rcases List.mem_cons.1 h with heq | hmem
      · cases heq
        exact ⟨[], s, m, .refl, hrun⟩
      · rcases ih hmem with ⟨later, m', m'', hlater, hfail⟩
        exact ⟨first ++ later, m', m'', hfirst.trans hlater, hfail⟩

end LineBasic.Machine
