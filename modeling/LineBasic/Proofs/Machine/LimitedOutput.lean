import LineBasic.Proofs.Machine.Failure

/-!
# Outputs with a limit

A run whose output takes a limited number of bytes goes step by step with the run whose output
takes all, as long as this one has not written more.  The first print that would go over the limit
fails, and then the output holds just as many bytes of the unlimited one as there was room for.
Nothing fits behind them, not even the end of a line, so that the output stays as it is.

Main definitions:

- `State.limited`: a state with an output that takes a limited number of bytes.
- `finalState` and `limitedResult`: how a run ends, with a limit or without.
- `Overrun`: how a run goes over a limit.

Main results:

- `Performs.limited` and `Fails.limited`: statements that stay within the limit.
- `Performs.fails_limited`: the print that goes over the limit.
- `History.limited` and `runFor_limited`: histories and runs that stay within the limit.
- `History.output_eq_of_full`: no line writes to an output that is full.
- `exists_overrun_of_runFor`: runs that do not stay within the limit.
- `limited_output`: all of this for machines that start alike.
-/

namespace LineBasic.Machine

variable {program : Program} {scope : Scope}

/-! ## Writing -/

/-- An output with a limit, the bytes that are written already included. -/
def Output.limited (o : Output) (limit : Nat) : Output :=
  { o with room := some (limit - o.written.size) }

/-- An output without a limit writes all of a text. -/
theorem Output.size_of_write {o output : Output} {text : String} {complete : Bool}
    (hroom : o.room = none) (hwrite : o.write text = (complete, output)) :
    output.written.size = o.written.size + (encode text).length := by
  obtain ⟨rfl, -⟩ := Output.of_room_eq_none hroom hwrite
  rw [← Array.length_toList, Output.written_of_write hwrite, List.length_append,
    Array.length_toList]

/-- Within the limit, a text is written as it is without a limit. -/
theorem Output.write_limited {o output : Output} {text : String} {complete : Bool} {limit : Nat}
    (hroom : o.room = none) (hwrite : o.write text = (complete, output))
    (hfits : output.written.size ≤ limit) :
    (o.limited limit).write text = (complete, output.limited limit) := by
  have hsize := Output.size_of_write hroom hwrite
  rcases o with ⟨written, room⟩
  cases hroom
  cases hwrite
  simp only at hsize hfits
  have hle : (encode text).length ≤ limit - written.size := by omega
  simp only [Output.write, Output.limited, List.take_of_length_le hle, decide_eq_true hle]
  rw [hsize, Nat.sub_sub]

/-- Over the limit, a text is cut where the limit is. -/
theorem Output.write_limited_of_lt {o output : Output} {text : String} {complete : Bool}
    {limit : Nat} (hroom : o.room = none) (hwrite : o.write text = (complete, output))
    (hbefore : o.written.size ≤ limit) (hover : limit < output.written.size) :
    ∃ cut, (o.limited limit).write text = (false, cut) ∧
      cut.written.toList = output.written.toList.take limit ∧ cut.room = some 0 := by
  have hsize := Output.size_of_write hroom hwrite
  rcases o with ⟨written, room⟩
  cases hroom
  cases hwrite
  simp only at hsize hbefore hover
  have hlt : limit - written.size < (encode text).length := by omega
  refine ⟨⟨written ++ (encode text).take (limit - written.size),
    some (limit - written.size - (encode text).length)⟩, ?_, ?_, ?_⟩
  · simp only [Output.write, Output.limited, decide_eq_false (Nat.not_le.2 hlt)]
  · have hwritten : written.toList.length ≤ limit := by simpa using hbefore
    simp only [Array.toList_appendList, List.take_append, List.take_of_length_le hwritten,
      Array.length_toList]
  · exact congrArg some (Nat.sub_eq_zero_of_le (Nat.le_of_lt hlt))

/-- Whatever is written stands behind what was written before. -/
theorem Output.prefix_of_write {o output : Output} {text : String} {complete : Bool}
    (hwrite : o.write text = (complete, output)) :
    o.written.toList <+: output.written.toList := by
  cases complete with
  | true => exact ⟨_, (Output.written_of_write hwrite).symm⟩
  | false =>
    obtain ⟨printed, -, -, -, hwritten, -⟩ := Output.exists_cut_of_write hwrite
    exact ⟨printed, hwritten.symm⟩

/-- Nothing is written to an output that is full, not even the end of a line. -/
theorem Output.write_line_of_full {o : Output} (hroom : o.room = some 0) (text : String) :
    o.write (text ++ "\n") = (false, o) := by
  have hne : encode (text ++ "\n") ≠ [] := by
    rw [encode_append]
    exact List.append_ne_nil_of_right_ne_nil _ (by decide)
  rcases o with ⟨written, room⟩
  cases hroom
  simp [Output.write, hne]

/-! ## States with a limit -/

/-- A state whose output takes a limited number of bytes, those that are written included. -/
def State.limited (s : State) (limit : Nat) : State :=
  { s with output := s.output.limited limit }

/-- A statement that stays within the limit does what it does without a limit. -/
theorem Performs.limited {stmt : Stmt} {s s' : State} {limit : Nat}
    (h : Performs program scope s stmt s') (hroom : s.output.room = none)
    (hfits : s'.output.written.size ≤ limit) :
    Performs program scope (s.limited limit) stmt (s'.limited limit) := by
  cases h with
  | declare => exact .declare
  | assign heval => exact .assign heval
  | inputText htype hread => exact .inputText htype hread
  | inputNumber htype hread => exact .inputNumber htype hread
  | print heval hwrite => exact .print heval (Output.write_limited hroom hwrite hfits)
  | skip hlhs hrhs hfalse => exact .skip hlhs hrhs hfalse
  | goto hfind => exact .goto hfind
  | goNowhere hfind => exact .goNowhere hfind
  | gosub hfind => exact .gosub hfind
  | callNowhere hfind => exact .callNowhere hfind
  | ret hreturns => exact .ret hreturns
  | stop => exact .stop

/-- A statement that fails without a limit fails with one, and in the same way. -/
theorem Fails.limited {stmt : Stmt} {e : RuntimeError} {s s' : State}
    (h : Fails scope s stmt e s') (hroom : s.output.room = none) (limit : Nat) :
    Fails scope (s.limited limit) stmt e (s'.limited limit) := by
  cases h with
  | assign heval => exact .assign heval
  | inputText htype hread => exact .inputText htype hread
  | inputNumber htype hread => exact .inputNumber htype hread
  | items heval => exact .items heval
  | output heval hwrite => cases (Output.of_room_eq_none hroom hwrite).1
  | condLeft hlhs => exact .condLeft hlhs
  | condRight hlhs hrhs => exact .condRight hlhs hrhs
  | ret hreturns => exact .ret hreturns

/-- A statement that fails writes nothing, if the reason is not a limit. -/
theorem Fails.output_eq {stmt : Stmt} {e : RuntimeError} {s s' : State}
    (h : Fails scope s stmt e s') (hroom : s.output.room = none) : s'.output = s.output := by
  cases h with
  | output heval hwrite => cases (Output.of_room_eq_none hroom hwrite).1
  | _ => rfl

/-- A statement that goes over the limit is a print, which fails with the output cut there. -/
theorem Performs.fails_limited {stmt : Stmt} {s s' : State} {limit : Nat}
    (h : Performs program scope s stmt s') (hroom : s.output.room = none)
    (hbefore : s.output.written.size ≤ limit) (hover : limit < s'.output.written.size) :
    ∃ items cut, stmt = .print items ∧
      Fails scope (s.limited limit) stmt (.stream .full) { s' with output := cut } ∧
      cut.written.toList = s'.output.written.toList.take limit ∧ cut.room = some 0 := by
  cases h with
  | print heval hwrite =>
    obtain ⟨cut, hcut, hwritten, hfull⟩ :=
      Output.write_limited_of_lt hroom hwrite hbefore hover
    exact ⟨_, cut, rfl, .output heval hcut, hwritten, hfull⟩
  | _ => exact absurd hbefore (Nat.not_le.2 hover)

/-! ## Lines with a limit -/

/-- A line that stays within the limit does what it does without a limit. -/
theorem Advance.limited {s s' : State} {event : Event} {limit : Nat}
    (h : Advance program scope s event s') (hroom : s.output.room = none)
    (hfits : s'.output.written.size ≤ limit) :
    Advance program scope (s.limited limit) event (s'.limited limit) := by
  cases h with
  | ok hnext hline hstep =>
    obtain ⟨line, hfound, hperforms⟩ := run_step_eq_ok_iff.1 hstep
    exact .ok hnext hline (run_step_eq_ok_iff.2 ⟨line, hfound, hperforms.limited hroom hfits⟩)
  | error hnext hline hstep =>
    refine .error hnext hline (run_step_eq_error_iff.2 ?_)
    rcases run_step_eq_error_iff.1 hstep with ⟨hnone, -⟩ | ⟨line, hfound, hfails⟩
    · rw [hline] at hnone
      cases hnone
    · exact .inr ⟨line, hfound, hfails.limited hroom limit⟩

/-- A line that goes over the limit prints, and fails with the output cut there. -/
theorem Advance.fails_limited {s s' : State} {event : Event} {limit : Nat}
    (h : Advance program scope s event s') (hroom : s.output.room = none)
    (hbefore : s.output.written.size ≤ limit) (hover : limit < s'.output.written.size) :
    (∃ items, event.stmt = .print items) ∧ event.error = none ∧
      ∃ cut, Advance program scope (s.limited limit)
          { event with error := some (.stream .full) } { s' with output := cut } ∧
        cut.written.toList = s'.output.written.toList.take limit ∧ cut.room = some 0 := by
  cases h with
  | @ok i line s' hnext hline hstep =>
    obtain ⟨found, hfound, hperforms⟩ := run_step_eq_ok_iff.1 hstep
    rw [hline] at hfound
    cases hfound
    obtain ⟨items, cut, hstmt, hfails, hwritten, hfull⟩ :=
      hperforms.fails_limited hroom hbefore hover
    have hstop : (step program scope i).run (s.limited limit) =
        .error (.stream .full) { s' with output := cut } :=
      run_step_eq_error_iff.2 (.inr ⟨line, hline, hfails⟩)
    exact ⟨⟨items, hstmt⟩, rfl, cut, .error hnext hline hstop, hwritten, hfull⟩
  | error hnext hline hstep =>
    rcases run_step_eq_error_iff.1 hstep with ⟨-, -, rfl⟩ | ⟨line, -, hfails⟩
    · exact absurd hbefore (Nat.not_le.2 hover)
    · rw [hfails.output_eq hroom] at hover
      exact absurd hbefore (Nat.not_le.2 hover)

/-- Lines only add to the output. -/
theorem Advance.written_prefix {s s' : State} {event : Event}
    (h : Advance program scope s event s') :
    s.output.written.toList <+: s'.output.written.toList := by
  rcases h.output_cases with heq | ⟨items, text, complete, -, -, hwrite, -⟩
  · exact heq ▸ List.prefix_rfl
  · exact Output.prefix_of_write hwrite

/-- No line writes to an output that is full. -/
theorem Advance.output_eq_of_full {s s' : State} {event : Event}
    (h : Advance program scope s event s') (hfull : s.output.room = some 0) :
    s'.output = s.output := by
  rcases h.output_cases with heq | ⟨items, text, complete, -, -, hwrite, -⟩
  · exact heq
  · rw [Output.write_line_of_full hfull] at hwrite
    exact (Prod.mk.inj hwrite).2.symm

/-! ## Histories with a limit -/

namespace History

variable {s s' : State} {trace : List Event}

/-- What has been written stays. -/
theorem written_prefix (h : History program scope s trace s') :
    s.output.written.toList <+: s'.output.written.toList :=
  h.invariant (P := fun m => s.output.written.toList <+: m.output.written.toList)
    List.prefix_rfl fun _ _ _ hm hadvance => hm.trans hadvance.written_prefix

/-- The number of bytes that have been written never goes down. -/
theorem size_le (h : History program scope s trace s') :
    s.output.written.size ≤ s'.output.written.size := by
  simpa using h.written_prefix.length_le

/-- An output without a limit stays without one. -/
theorem room_eq_none (h : History program scope s trace s') (hroom : s.output.room = none) :
    s'.output.room = none :=
  h.invariant (P := fun m => m.output.room = none) hroom
    fun _ _ _ hm hadvance => hadvance.room_eq_none hm

/-- A history that stays within the limit is one with the limit. -/
theorem limited {limit : Nat} (h : History program scope s trace s') (hroom : s.output.room = none)
    (hfits : s'.output.written.size ≤ limit) :
    History program scope (s.limited limit) trace (s'.limited limit) := by
  induction h with
  | refl => exact .refl
  | @snoc trace event m m' hearlier hlast ih =>
    have hbefore : m.output.written.size ≤ limit := Nat.le_trans (single hlast).size_le hfits
    exact .snoc (ih hbefore) (hlast.limited (hearlier.room_eq_none hroom) hfits)

/-- Nothing is ever written to an output that is full. -/
theorem output_eq_of_full (h : History program scope s trace s')
    (hfull : s.output.room = some 0) : s'.output = s.output := by
  refine h.invariant (P := fun m => m.output = s.output) rfl fun m event m' hm hadvance => ?_
  rw [hadvance.output_eq_of_full (by rwa [hm]), hm]

end History

/-! ## Runs with a limit -/

/-- The state that a run ends in, with success or without. -/
def finalState : EStateM.Result RuntimeError State Bool → State
  | .ok _ s => s
  | .error _ s => s

/-- The end of a run, but with an output that takes a limited number of bytes. -/
def limitedResult (limit : Nat) :
    EStateM.Result RuntimeError State Bool → EStateM.Result RuntimeError State Bool
  | .ok ended s => .ok ended (s.limited limit)
  | .error e s => .error e (s.limited limit)

variable (program scope) in
/-- A run gets to its final state by a history. -/
theorem exists_history_finalState (n : Nat) (s : State) :
    ∃ trace, History program scope s trace (finalState ((runFor program scope n).run s)) := by
  cases hrun : (runFor program scope n).run s with
  | ok ended s' =>
    obtain ⟨trace, hhistory, -⟩ := history_of_runFor_eq_ok hrun
    exact ⟨trace, hhistory⟩
  | error e s' =>
    obtain ⟨trace, hhistory, -⟩ := history_of_runFor_eq_error hrun
    exact ⟨trace, hhistory⟩

variable (program scope) in
/-- A run ends where it begins, whatever the output is, if there is no line to execute; otherwise
it begins with a line. -/
theorem idle_or_advance (n : Nat) (s : State) :
    (finalState ((runFor program scope (n + 1)).run s) = s ∧
        ∀ limit, (runFor program scope (n + 1)).run (s.limited limit) =
          limitedResult limit ((runFor program scope (n + 1)).run s)) ∨
      ∃ event m, Advance program scope s event m := by
  cases hnext : s.next with
  | none =>
    refine .inl ⟨by simp only [run_runFor_succ, hnext, finalState], fun limit => ?_⟩
    have hlimited : (s.limited limit).next = none := hnext
    simp only [run_runFor_succ, hnext, hlimited, limitedResult]
  | some i =>
    cases hline : program.lines[i]? with
    | none =>
      refine .inl ⟨by simp only [run_runFor_succ, hnext, run_step, hline, finalState],
        fun limit => ?_⟩
      have hlimited : (s.limited limit).next = some i := hnext
      simp only [run_runFor_succ, hnext, hlimited, run_step, hline, limitedResult]
      rfl
    | some line =>
      obtain ⟨event, m, hadvance, -⟩ := exists_advance scope hnext hline
      exact .inr ⟨event, m, hadvance⟩

/-- A run that stays within the limit ends as it does without a limit. -/
theorem runFor_limited {n : Nat} {s : State} {limit : Nat} (hroom : s.output.room = none)
    (hfits : (finalState ((runFor program scope n).run s)).output.written.size ≤ limit) :
    (runFor program scope n).run (s.limited limit) =
      limitedResult limit ((runFor program scope n).run s) := by
  induction n generalizing s with
  | zero => rfl
  | succ n ih =>
    rcases idle_or_advance program scope n s with ⟨-, hidle⟩ | ⟨event, m, hadvance⟩
    · exact hidle limit
    · cases herror : event.error with
      | none =>
        rw [hadvance.runFor_of_ok herror] at hfits ⊢
        obtain ⟨trace, hlater⟩ := exists_history_finalState program scope n m
        have hlimited := hadvance.limited hroom (Nat.le_trans hlater.size_le hfits)
        rw [hlimited.runFor_of_ok herror]
        exact ih (hadvance.room_eq_none hroom) hfits
      | some e =>
        rw [hadvance.runFor_of_error herror] at hfits ⊢
        exact (hadvance.limited hroom hfits).runFor_of_error herror n

/-- How a run of at most `n` lines goes over a limit: a line prints too much, and with the limit
that line fails. -/
structure Overrun (program : Program) (scope : Scope) (limit n : Nat) (s : State)
    (trace : List Event) (event : Event) (m m' t : State) : Prop where
  /-- The lines before succeed, and stay within the limit. -/
  before : History program scope s trace m
  clean : ∀ earlier ∈ trace, earlier.error = none
  within : m.output.written.size ≤ limit
  /-- Without a limit the next line prints, and the run goes on behind it. -/
  advance : Advance program scope m event m'
  prints : ∃ items, event.stmt = .print items
  succeeds : event.error = none
  exceeds : limit < m'.output.written.size
  length_lt : trace.length < n
  goes_on : (runFor program scope n).run s =
    (runFor program scope (n - (trace.length + 1))).run m'
  /-- With the limit it fails, and so does the run; only the output is another one. -/
  fails : Advance program scope (m.limited limit)
    { event with error := some (.stream .full) } t
  stops : (runFor program scope n).run (s.limited limit) = .error (.stream .full) t
  state_eq : t = { m' with output := t.output }
  /-- The output is cut where the limit is. -/
  written_eq : t.output.written.toList = m'.output.written.toList.take limit
  full : t.output.room = some 0

/-- What goes over the limit behind a line that succeeds does so from the line on. -/
theorem Overrun.cons {limit n : Nat} {s s₁ m m' t : State} {trace : List Event}
    {first event : Event} (hfirst : Advance program scope s first s₁) (hok : first.error = none)
    (hlimited : Advance program scope (s.limited limit) first (s₁.limited limit))
    (h : Overrun program scope limit n s₁ trace event m m' t) :
    Overrun program scope limit (n + 1) s (first :: trace) event m m' t where
  before := (History.single hfirst).trans h.before
  clean := List.forall_mem_cons.2 ⟨hok, h.clean⟩
  within := h.within
  advance := h.advance
  prints := h.prints
  succeeds := h.succeeds
  exceeds := h.exceeds
  length_lt := Nat.succ_lt_succ h.length_lt
  goes_on := by
    rw [hfirst.runFor_of_ok hok, h.goes_on, List.length_cons, Nat.add_sub_add_right]
  fails := h.fails
  stops := by rw [hlimited.runFor_of_ok hok, h.stops]
  state_eq := h.state_eq
  written_eq := h.written_eq
  full := h.full

/-- A line that goes over the limit does so for the run that begins with it. -/
theorem Advance.exists_overrun {s m : State} {event : Event} {limit : Nat}
    (h : Advance program scope s event m) (hroom : s.output.room = none)
    (hbefore : s.output.written.size ≤ limit) (hover : limit < m.output.written.size) (n : Nat) :
    ∃ t, Overrun program scope limit (n + 1) s [] event s m t := by
  obtain ⟨hprints, hok, cut, hfails, hwritten, hfull⟩ := h.fails_limited hroom hbefore hover
  exact ⟨{ m with output := cut }, {
    before := .refl
    clean := by simp
    within := hbefore
    advance := h
    prints := hprints
    succeeds := hok
    exceeds := hover
    length_lt := Nat.succ_pos n
    goes_on := h.runFor_of_ok hok n
    fails := hfails
    stops := hfails.runFor_of_error rfl n
    state_eq := rfl
    written_eq := hwritten
    full := hfull }⟩

/-- A run that writes more than the limit goes over it with one of its prints. -/
theorem exists_overrun_of_runFor {n : Nat} {s : State} {limit : Nat} (hroom : s.output.room = none)
    (hbefore : s.output.written.size ≤ limit)
    (hover : limit < (finalState ((runFor program scope n).run s)).output.written.size) :
    ∃ trace event m m' t, Overrun program scope limit n s trace event m m' t := by
  -- the first line goes over the limit, or the rest of the run does, from within the limit again
  induction n generalizing s with
  | zero => exact absurd hbefore (Nat.not_le.2 hover)
  | succ n ih =>
    rcases idle_or_advance program scope n s with ⟨hidle, -⟩ | ⟨event, m, hadvance⟩
    · rw [hidle] at hover
      exact absurd hbefore (Nat.not_le.2 hover)
    · by_cases hfits : m.output.written.size ≤ limit
      · cases herror : event.error with
        | none =>
          rw [hadvance.runFor_of_ok herror] at hover
          obtain ⟨trace, last, m₁, m₂, t, hlater⟩ :=
            ih (hadvance.room_eq_none hroom) hfits hover
          exact ⟨event :: trace, last, m₁, m₂, t,
            hlater.cons hadvance herror (hadvance.limited hroom hfits)⟩
        | some e =>
          rw [hadvance.runFor_of_error herror] at hover
          exact absurd hfits (Nat.not_le.2 hover)
      · obtain ⟨t, hfirst⟩ := hadvance.exists_overrun hroom hbefore (Nat.not_le.1 hfits) n
        exact ⟨[], event, s, m, t, hfirst⟩

/-- Behind the line that goes over the limit, a run without a limit only adds to what the limit
cuts off. -/
theorem Overrun.written_eq_take {limit n : Nat} {s m m' t : State} {trace : List Event}
    {event : Event} (h : Overrun program scope limit n s trace event m m' t) :
    t.output.written.toList =
      (finalState ((runFor program scope n).run s)).output.written.toList.take limit := by
  obtain ⟨later, hlater⟩ :=
    exists_history_finalState program scope (n - (trace.length + 1)) m'
  have hlong : limit ≤ m'.output.written.toList.length := by
    rw [Array.length_toList]
    exact Nat.le_of_lt h.exceeds
  obtain ⟨rest, hrest⟩ := hlater.written_prefix
  rw [h.written_eq, h.goes_on, ← hrest, List.take_append_of_le_length hlong]

variable (program scope) in
/-- A limited output is the beginning of the unlimited one.  Two machines start alike, but the
output of one takes no more than a number of bytes.  As long as the other has not written more,
both go through the same states, and a run that stays within the limit ends in the same way for
both.  Any other run goes over the limit with a print for the first time: there the run with the
limit fails, in the state of the other one but for the output, which is just as much of the
unlimited one as there was room for, and stays so in whatever is run afterwards. -/
theorem limited_output (input : List UInt8) (limit : Nat) :
    (∀ {trace : List Event} {m : State}, History program scope (.start scope input none) trace m →
      m.output.written.size ≤ limit →
        History program scope (.start scope input (some limit)) trace (m.limited limit)) ∧
    ∀ {n : Nat} {result : EStateM.Result RuntimeError State Bool},
      (runFor program scope n).run (.start scope input none) = result →
        ((finalState result).output.written.size ≤ limit →
          (runFor program scope n).run (.start scope input (some limit)) =
            limitedResult limit result) ∧
        (limit < (finalState result).output.written.size →
          ∃ trace event m m' t,
            Overrun program scope limit n (.start scope input none) trace event m m' t ∧
            (runFor program scope n).run (.start scope input (some limit)) =
              .error (.stream .full) t ∧
            t.output.written.toList = (finalState result).output.written.toList.take limit ∧
            (∀ {later : List Event} {u : State}, History program scope t later u →
              u.output = t.output) ∧
            ∀ k, (runTimes program scope k t).2.output = t.output) := by
  have hstart : State.start scope input (some limit) =
      (State.start scope input none).limited limit := rfl
  have hroom : (State.start scope input none).output.room = none := rfl
  rw [hstart]
  refine ⟨fun h hfits => h.limited hroom hfits, ?_⟩
  rintro n result rfl
  refine ⟨runFor_limited hroom, fun hover => ?_⟩
  obtain ⟨trace, event, m, m', t, h⟩ := exists_overrun_of_runFor hroom (Nat.zero_le limit) hover
  refine ⟨trace, event, m, m', t, h, h.stops, h.written_eq_take,
    fun hlater => hlater.output_eq_of_full h.full, fun k => ?_⟩
  obtain ⟨later, hlater⟩ := history_of_runTimes program scope k t
  exact hlater.output_eq_of_full h.full

/-- Two lines are printed in seven bytes.  With room for four of them the output ends within a
character, and with room for seven nothing is different. -/
theorem output_cut_in_character :
    let program : Program :=
      ⟨[⟨10, .print [.text "AB"]⟩, ⟨20, .print [.text "é", .number 1]⟩, ⟨30, .stop⟩]⟩
    let scope : Scope := ⟨⟨"GLOBAL", []⟩, []⟩
    (∃ t : State, (runFor program scope 5).run (.start scope [] (some 4)) =
        .error (.stream .full) t ∧ t.output.written.toList = [65, 66, 10, 195] ∧
        ∀ k, (runTimes program scope k t).2.output = t.output) ∧
      (runFor program scope 5).run (.start scope [] (some 7)) =
        limitedResult 7 ((runFor program scope 5).run (.start scope [] none)) := by
  intro program scope
  have hwritten : (finalState ((runFor program scope 5).run
      (.start scope [] none))).output.written = #[65, 66, 10, 195, 169, 49, 10] := by cbv
  constructor
  · obtain ⟨-, -, -, -, t, -, hstops, hcut, -, hlater⟩ :=
      ((limited_output program scope [] 4).2 rfl).2 (by rw [hwritten]; decide)
    rw [hwritten] at hcut
    exact ⟨t, hstops, hcut, hlater⟩
  · exact ((limited_output program scope [] 7).2 rfl).1 (by rw [hwritten]; decide)

end LineBasic.Machine
