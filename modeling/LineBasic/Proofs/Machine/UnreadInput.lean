import LineBasic.Proofs.Machine.LimitedOutput
import LineBasic.Proofs.Machine.LineInput

/-!
# Input that is not read

A machine has no way to look at its input but to take lines from the front of it.  So runs do the
same whatever is behind the lines that they take, as long as they do not come to the end.  The
lines that they take, those that are refused for a number included, are what the input begins
with, each of them taken once and whole.

Main definitions:

- `ValueLines` and `Takes`: the lines that a variable takes for its value, and those of an event.
- `Readout`: a history with the lines that are taken in it.
- `State.withInput`: a state with another input.
- `runsWithin`: runs one after the other, each for a number of lines.

Main results:

- `Advance.exists_takes` and `Advance.withInput`: what a line takes, and that it goes by nothing
  else.
- `Readout.input_eq`: the lines that are taken are the front of the input.
- `runFor_withInput` and `runsWithin_withInput`: runs with another input behind what they take.
- `unread_input`: the same for the bytes of an input.
-/

namespace LineBasic.Machine

variable {program : Program} {scope : Scope}

/-! ## What is behind the lines that are taken -/

/-- Reading goes by the lines that it takes, unless it comes to the end of them. -/
theorem AnswersBy.append {α : Type}
    {read : List (List UInt8) → Except ReadError α × List (List UInt8)}
    {Lines : List (List UInt8) → Except ReadError α → Prop} (h : AnswersBy read Lines)
    {taken rest : List (List UInt8)} {answer : Except ReadError α}
    (hread : read (taken ++ rest) = (answer, rest)) (hanswer : answer ≠ .error .endOfInput)
    (other : List (List UInt8)) : read (taken ++ other) = (answer, other) := by
  rcases h.1 hread with ⟨lines, hinput, hlines, -⟩
  obtain rfl := List.append_cancel_right hinput
  exact h.2 ⟨taken, rfl, hlines, fun hend => absurd hend hanswer⟩

/-- A state with another input. -/
def State.withInput (s : State) (input : List (List UInt8)) : State :=
  { s with input }

/-! ## Statements -/

/-- Only an input takes lines. -/
theorem Performs.input_eq {stmt : Stmt} {s s' : State} (h : Performs program scope s stmt s')
    (hother : ∀ name, stmt ≠ .input name) : s'.input = s.input := by
  cases h with
  | inputText | inputNumber => exact absurd rfl (hother _)
  | _ => rfl

/-- An input that gives no value is the only failure to take lines. -/
theorem Fails.input_eq {stmt : Stmt} {e : RuntimeError} {s s' : State}
    (h : Fails scope s stmt e s') (hother : ∀ name, stmt ≠ .input name) :
    s'.input = s.input := by
  cases h with
  | inputText | inputNumber => exact absurd rfl (hother _)
  | _ => rfl

/-- A statement that takes no lines succeeds with any input. -/
theorem Performs.withInput_of_other {stmt : Stmt} {s s' : State}
    (h : Performs program scope s stmt s') (hother : ∀ name, stmt ≠ .input name)
    (input : List (List UInt8)) :
    Performs program scope (s.withInput input) stmt (s'.withInput input) := by
  cases h with
  | inputText | inputNumber => exact absurd rfl (hother _)
  | declare => exact .declare
  | assign heval => exact .assign heval
  | print heval hwrite => exact .print heval hwrite
  | skip hlhs hrhs hfalse => exact .skip hlhs hrhs hfalse
  | goto hfind => exact .goto hfind
  | goNowhere hfind => exact .goNowhere hfind
  | gosub hfind => exact .gosub hfind
  | callNowhere hfind => exact .callNowhere hfind
  | ret hreturns => exact .ret hreturns
  | stop => exact .stop

/-- A statement that takes no lines fails with any input. -/
theorem Fails.withInput_of_other {stmt : Stmt} {e : RuntimeError} {s s' : State}
    (h : Fails scope s stmt e s') (hother : ∀ name, stmt ≠ .input name)
    (input : List (List UInt8)) :
    Fails scope (s.withInput input) stmt e (s'.withInput input) := by
  cases h with
  | inputText | inputNumber => exact absurd rfl (hother _)
  | assign heval => exact .assign heval
  | items heval => exact .items heval
  | output heval hwrite => exact .output heval hwrite
  | condLeft hlhs => exact .condLeft hlhs
  | condRight hlhs hrhs => exact .condRight hlhs hrhs
  | ret hreturns => exact .ret hreturns

/-- A statement that succeeds does the same with other lines behind those that it takes. -/
theorem Performs.withInput {stmt : Stmt} {s s' : State} (h : Performs program scope s stmt s')
    {taken : List (List UInt8)} (htaken : s.input = taken ++ s'.input)
    (other : List (List UInt8)) :
    Performs program scope (s.withInput (taken ++ other)) stmt (s'.withInput other) := by
  by_cases hother : ∀ name, stmt ≠ .input name
  · rw [h.input_eq hother] at htaken
    obtain rfl := List.self_eq_append_left.1 htaken
    exact h.withInput_of_other hother other
  · simp only [not_forall, not_not] at hother
    obtain ⟨name, rfl⟩ := hother
    cases h with
    | inputText htype hread =>
      rw [htaken] at hread
      exact .inputText htype (readText_answersBy.append hread (by simp) other)
    | inputNumber htype hread =>
      rw [htaken] at hread
      exact .inputNumber htype (readNumber_answersBy.append hread (by simp) other)

/-- So does one that fails, unless it comes to the end of the input. -/
theorem Fails.withInput {stmt : Stmt} {e : RuntimeError} {s s' : State}
    (h : Fails scope s stmt e s') (hend : ∀ number, e ≠ .onLine number .endOfInput)
    {taken : List (List UInt8)} (htaken : s.input = taken ++ s'.input)
    (other : List (List UInt8)) :
    Fails scope (s.withInput (taken ++ other)) stmt e (s'.withInput other) := by
  by_cases hother : ∀ name, stmt ≠ .input name
  · rw [h.input_eq hother] at htaken
    obtain rfl := List.self_eq_append_left.1 htaken
    exact h.withInput_of_other hother other
  · simp only [not_forall, not_not] at hother
    obtain ⟨name, rfl⟩ := hother
    have hcause (cause : ReadError) (heq : e = s.inputError cause) : cause ≠ .endOfInput := by
      rintro rfl
      exact hend _ heq
    cases h with
    | inputText htype hread =>
      rw [htaken] at hread
      have hagain := readText_answersBy.append hread (by simpa using hcause _ rfl) other
      exact .inputText (s := s.withInput (taken ++ other)) htype hagain
    | inputNumber htype hread =>
      rw [htaken] at hread
      have hagain := readNumber_answersBy.append hread (by simpa using hcause _ rfl) other
      exact .inputNumber (s := s.withInput (taken ++ other)) htype hagain

/-! ## Lines -/

/-- The lines that a variable takes for its value: one for a text, and all up to the first with a
number for a variable of another type. -/
inductive ValueLines (scope : Scope) (name : String) :
    List (List UInt8) → Except ReadError Value → Prop
  | text {taken : List (List UInt8)} {answer : Except ReadError String}
      (htype : scope.typeOf? name = some .string) (hlines : TextLines taken answer) :
    ValueLines scope name taken (answer.map .text)
  | number {taken : List (List UInt8)} {answer : Except ReadError Int16}
      (htype : scope.typeOf? name ≠ some .string) (hlines : NumberLines taken answer) :
    ValueLines scope name taken (answer.map .integer)

/-- The lines that an event takes.  An input takes those for the value of its variable, and the
variable gets the value; or there is no value, and then there is an error.  Nothing else takes
any. -/
inductive Takes (scope : Scope) (s : State) (event : Event) (s' : State) :
    List (List UInt8) → Prop
  | value {name : String} {taken : List (List UInt8)} {v : Value}
      (hstmt : event.stmt = .input name) (hlines : ValueLines scope name taken (.ok v))
      (hok : event.error = none) (hstore : s'.store = s.store.put name v) :
    Takes scope s event s' taken
  | noValue {name : String} {taken : List (List UInt8)} {cause : ReadError}
      (hstmt : event.stmt = .input name) (hlines : ValueLines scope name taken (.error cause))
      (herror : event.error = some (s'.inputError cause)) (hstore : s'.store = s.store) :
    Takes scope s event s' taken
  | other (hother : ∀ name, event.stmt ≠ .input name) : Takes scope s event s' []

/-- An input that succeeds takes the lines for the value that its variable gets. -/
theorem Performs.exists_valueLines {name : String} {s s' : State}
    (h : Performs program scope s (.input name) s') :
    ∃ taken v, s.input = taken ++ s'.input ∧ ValueLines scope name taken (.ok v) ∧
      s'.store = s.store.put name v := by
  cases h with
  | inputText htype hread =>
    rcases readText_answersBy.1 hread with ⟨taken, hinput, hlines, -⟩
    exact ⟨taken, _, hinput, .text htype hlines, rfl⟩
  | inputNumber htype hread =>
    rcases readNumber_answersBy.1 hread with ⟨taken, hinput, hlines, -⟩
    exact ⟨taken, _, hinput, .number htype hlines, rfl⟩

/-- An input that fails takes lines that give no value. -/
theorem Fails.exists_valueLines {name : String} {e : RuntimeError} {s s' : State}
    (h : Fails scope s (.input name) e s') :
    ∃ taken cause, s.input = taken ++ s'.input ∧ ValueLines scope name taken (.error cause) ∧
      e = s'.inputError cause ∧ s'.store = s.store := by
  have hsame (later : List (List UInt8)) (cause : ReadError) :
      s.inputError cause = (s.withInput later).inputError cause := by
    cases cause <;> rfl
  cases h with
  | inputText htype hread =>
    rcases readText_answersBy.1 hread with ⟨taken, hinput, hlines, -⟩
    exact ⟨taken, _, hinput, .text htype hlines, hsame _ _, rfl⟩
  | inputNumber htype hread =>
    rcases readNumber_answersBy.1 hread with ⟨taken, hinput, hlines, -⟩
    exact ⟨taken, _, hinput, .number htype hlines, hsame _ _, rfl⟩

/-- What a line takes is what its input begins with. -/
theorem Advance.exists_takes {s s' : State} {event : Event}
    (h : Advance program scope s event s') :
    ∃ taken, s.input = taken ++ s'.input ∧ Takes scope s event s' taken := by
  obtain ⟨line, -, -, -, hrule⟩ := h.performs_or_fails
  by_cases hother : ∀ name, event.stmt ≠ .input name
  · refine ⟨[], ?_, .other hother⟩
    rcases hrule with ⟨-, hperforms⟩ | ⟨e, -, hfails⟩
    · exact (hperforms.input_eq hother).symm
    · exact (hfails.input_eq hother).symm
  · simp only [not_forall, not_not] at hother
    obtain ⟨name, hstmt⟩ := hother
    rw [hstmt] at hrule
    rcases hrule with ⟨hok, hperforms⟩ | ⟨e, herror, hfails⟩
    · obtain ⟨taken, v, hinput, hlines, hstore⟩ := hperforms.exists_valueLines
      exact ⟨taken, hinput, .value hstmt hlines hok hstore⟩
    · obtain ⟨taken, cause, hinput, hlines, rfl, hstore⟩ := hfails.exists_valueLines
      exact ⟨taken, hinput, .noValue hstmt hlines herror hstore⟩

/-- A line does the same with other lines behind those that it takes, unless it comes to the end of
the input. -/
theorem Advance.withInput {s s' : State} {event : Event} (h : Advance program scope s event s')
    (hend : ∀ number, event.error ≠ some (.onLine number .endOfInput))
    {taken : List (List UInt8)} (htaken : s.input = taken ++ s'.input)
    (other : List (List UInt8)) :
    Advance program scope (s.withInput (taken ++ other)) event (s'.withInput other) := by
  cases h with
  | ok hnext hline hstep =>
    obtain ⟨line, hfound, hperforms⟩ := run_step_eq_ok_iff.1 hstep
    exact .ok hnext hline (run_step_eq_ok_iff.2 ⟨line, hfound, hperforms.withInput htaken other⟩)
  | error hnext hline hstep =>
    refine .error hnext hline (run_step_eq_error_iff.2 ?_)
    rcases run_step_eq_error_iff.1 hstep with ⟨hnone, -⟩ | ⟨line, hfound, hfails⟩
    · rw [hline] at hnone
      cases hnone
    · have hagain := hfails.withInput (fun number heq => hend number (by rw [heq])) htaken other
      exact .inr ⟨line, hfound, hagain⟩

/-! ## Histories -/

/-- A history with the lines that are taken in it, in the order in which they are taken. -/
inductive Readout (program : Program) (scope : Scope) (s₀ : State) :
    List Event → List (List UInt8) → State → Prop
  | start : Readout program scope s₀ [] [] s₀
  | snoc {trace : List Event} {lines taken : List (List UInt8)} {event : Event} {s s' : State}
      (hearlier : Readout program scope s₀ trace lines s)
      (hlast : Advance program scope s event s') (htaken : Takes scope s event s' taken)
      (hinput : s.input = taken ++ s'.input) :
    Readout program scope s₀ (trace ++ [event]) (lines ++ taken) s'

/-- Every history has lines that are taken in it. -/
theorem History.exists_readout {s₀ s : State} {trace : List Event}
    (h : History program scope s₀ trace s) : ∃ lines, Readout program scope s₀ trace lines s := by
  induction h with
  | refl => exact ⟨[], .start⟩
  | snoc _ hlast ih =>
    rcases ih with ⟨lines, hearlier⟩
    rcases hlast.exists_takes with ⟨taken, hinput, htakes⟩
    exact ⟨lines ++ taken, .snoc hearlier hlast htakes hinput⟩

/-- The lines that are taken are the front of the input, and the others are left. -/
theorem Readout.input_eq {s₀ s : State} {trace : List Event} {lines : List (List UInt8)}
    (h : Readout program scope s₀ trace lines s) : s₀.input = lines ++ s.input := by
  induction h with
  | start => rfl
  | snoc _ _ _ hinput ih => rw [ih, hinput, List.append_assoc]

/-! ## Runs -/

/-- The end of a run, but with another input. -/
def resultWithInput (input : List (List UInt8)) :
    EStateM.Result RuntimeError State Bool → EStateM.Result RuntimeError State Bool
  | .ok ended s => .ok ended (s.withInput input)
  | .error e s => .error e (s.withInput input)

/-- What a run answers. -/
def runAnswer : EStateM.Result RuntimeError State Bool → Except RuntimeError Bool
  | .ok ended _ => .ok ended
  | .error e _ => .error e

@[simp] theorem finalState_resultWithInput (input : List (List UInt8))
    (result : EStateM.Result RuntimeError State Bool) :
    finalState (resultWithInput input result) = (finalState result).withInput input := by
  cases result <;> rfl

@[simp] theorem runAnswer_resultWithInput (input : List (List UInt8))
    (result : EStateM.Result RuntimeError State Bool) :
    runAnswer (resultWithInput input result) = runAnswer result := by
  cases result <;> rfl

/-- A run does the same with other lines behind those that it takes, unless it comes to the end of
the input. -/
theorem runFor_withInput {n : Nat} {s : State} {result : EStateM.Result RuntimeError State Bool}
    (hrun : (runFor program scope n).run s = result)
    (hend : ∀ number t, result ≠ .error (.onLine number .endOfInput) t) :
    ∃ taken, s.input = taken ++ (finalState result).input ∧ ∀ other,
      (runFor program scope n).run (s.withInput (taken ++ other)) =
        resultWithInput other result := by
  subst hrun
  induction n generalizing s with
  | zero => exact ⟨[], rfl, fun other => rfl⟩
  | succ n ih =>
    cases hnext : s.next with
    | none =>
      have hagain (input : List (List UInt8)) : (s.withInput input).next = none := hnext
      refine ⟨[], ?_, fun other => ?_⟩
      · rw [run_runFor_succ, hnext]
        rfl
      · rw [run_runFor_succ, run_runFor_succ, hnext, hagain]
        rfl
    | some i =>
      have hagain (input : List (List UInt8)) : (s.withInput input).next = some i := hnext
      cases hline : program.lines[i]? with
      | none =>
        refine ⟨[], ?_, fun other => ?_⟩
        · simp only [run_runFor_succ, hnext, run_step, hline]
          rfl
        · simp only [run_runFor_succ, hnext, hagain, run_step, hline]
          rfl
      | some line =>
        obtain ⟨event, m, hadvance, -⟩ := exists_advance scope hnext hline
        obtain ⟨first, hfirst, -⟩ := hadvance.exists_takes
        cases herror : event.error with
        | none =>
          have hsame := hadvance.withInput (by simp [herror]) hfirst
          rw [hadvance.runFor_of_ok herror] at hend ⊢
          obtain ⟨later, hlater, hrest⟩ := ih hend
          refine ⟨first ++ later, by rw [hfirst, hlater, List.append_assoc], fun other => ?_⟩
          rw [List.append_assoc, (hsame (later ++ other)).runFor_of_ok herror, hrest]
        | some e =>
          rw [hadvance.runFor_of_error herror] at hend ⊢
          have hsame := hadvance.withInput (fun number heq => hend number m (by
            rw [herror] at heq
            rw [Option.some.inj heq])) hfirst
          exact ⟨first, hfirst, fun other => (hsame other).runFor_of_error herror n⟩

/-- The answers of runs, each going on where the one before stopped and executing as many lines as
it may, and the state that they leave. -/
def runsWithin (program : Program) (scope : Scope) :
    List Nat → State → List (Except RuntimeError Bool) × State
  | [], s => ([], s)
  | bound :: rest, s =>
    let result := (runFor program scope bound).run s
    let (later, final) := runsWithin program scope rest (finalState result)
    (runAnswer result :: later, final)

/-- Runs to the end are runs of more lines than any run executes. -/
theorem runTimes_eq_runsWithin (n : Nat) (s : State) :
    runTimes program scope n s = runsWithin program scope (List.replicate n lineLimit) s := by
  induction n generalizing s with
  | zero => rfl
  | succ n ih =>
    rw [List.replicate_succ, runsWithin, ← ih, runTimes, run]
    cases (runFor program scope lineLimit).run s <;> rfl

variable (program scope) in
/-- Runs one after the other have one history. -/
theorem history_of_runsWithin (bounds : List Nat) (s : State) :
    ∃ trace, History program scope s trace (runsWithin program scope bounds s).2 := by
  induction bounds generalizing s with
  | nil => exact ⟨[], .refl⟩
  | cons bound rest ih =>
    obtain ⟨first, hfirst⟩ := exists_history_finalState program scope bound s
    obtain ⟨later, hlater⟩ := ih (finalState ((runFor program scope bound).run s))
    exact ⟨first ++ later, hfirst.trans hlater⟩

/-- Runs one after the other do the same with other lines behind those that they take, unless one of
them comes to the end of the input. -/
theorem runsWithin_withInput {bounds : List Nat} {s : State}
    (hend : ∀ number,
      .error (.onLine number .endOfInput) ∉ (runsWithin program scope bounds s).1) :
    ∃ taken, s.input = taken ++ (runsWithin program scope bounds s).2.input ∧ ∀ other,
      runsWithin program scope bounds (s.withInput (taken ++ other)) =
        ((runsWithin program scope bounds s).1,
          (runsWithin program scope bounds s).2.withInput other) := by
  induction bounds generalizing s with
  | nil => exact ⟨[], rfl, fun other => rfl⟩
  | cons bound rest ih =>
    simp only [runsWithin, List.mem_cons, not_or] at hend ⊢
    have hfirst := runFor_withInput (n := bound) (s := s) rfl fun number t heq =>
      (hend number).1 (by rw [heq]; rfl)
    obtain ⟨first, hinput, hsame⟩ := hfirst
    obtain ⟨later, hlater, hrest⟩ := ih fun number => (hend number).2
    refine ⟨first ++ later, by rw [hinput, List.append_assoc, ← hlater], fun other => ?_⟩
    rw [List.append_assoc, hsame (later ++ other), finalState_resultWithInput,
      runAnswer_resultWithInput, hrest]

/-! ## Bytes -/

/-- A byte goes before the first of some lines, whatever lines are behind it. -/
theorem consByte_append (b : UInt8) {lines : List (List UInt8)} (hne : lines ≠ [])
    (later : List (List UInt8)) : consByte b (lines ++ later) = consByte b lines ++ later := by
  cases lines with
  | nil => exact absurd rfl hne
  | cons line rest =>
    rw [List.cons_append, consByte, consByte]
    split <;> rfl

/-- Behind whole lines an input has the lines that it would have without them. -/
theorem inputLines_append {front : List UInt8}
    (hends : front = [] ∨ front.getLast? = some lineFeed) (rest : List UInt8) :
    inputLines (front ++ rest) = inputLines front ++ inputLines rest := by
  induction front with
  | nil => rfl
  | cons b front ih =>
    rw [List.cons_append, inputLines_cons, inputLines_cons]
    cases front with
    | nil =>
      obtain rfl : b = lineFeed := by simpa using hends
      rw [List.nil_append]
      cases inputLines rest <;> rfl
    | cons b' front =>
      have hlast : (b' :: front).getLast? = some lineFeed := by simpa using hends
      have hne : inputLines (b' :: front) ≠ [] := by
        intro hnil
        have hflat := flatten_inputLines (b' :: front)
        rw [hnil] at hflat
        cases hflat
      rw [ih (.inr hlast), consByte_append b hne]

/-- Input that is not read has no influence.  Machines are started on the same bytes, with any
others behind them, and run any number of times, each time for as many lines as it takes.  If the
runs of one machine take just the bytes that all have in common, which are none or end with a line,
and none of them comes to the end of the input, then all machines answer the same, go on to the same
state but for the input, and have the other bytes left.  And by whatever history the state is
reached, each input in it takes the lines that come next, those that are refused for a number
included: together they are the lines that are read off the bytes, and they are these bytes. -/
theorem unread_input {bounds : List Nat} {c r : List UInt8} {room : Option Nat}
    {answers : List (Except RuntimeError Bool)} {s : State}
    (hruns : runsWithin program scope bounds (.start scope (c ++ r) room) = (answers, s))
    (htaken : s.input.flatten = r) (hends : c = [] ∨ c.getLast? = some lineFeed)
    (hend : ∀ number, .error (.onLine number .endOfInput) ∉ answers) :
    (∀ r', runsWithin program scope bounds (.start scope (c ++ r') room) =
      (answers, s.withInput (inputLines r'))) ∧
    (∃ trace, History program scope (.start scope (c ++ r) room) trace s) ∧
    ∀ trace, History program scope (.start scope (c ++ r) room) trace s →
      ∃ lines, Readout program scope (.start scope (c ++ r) room) trace lines s ∧
        ReadOff (c ++ r) lines r ∧ lines.flatten = c := by
  have hrest {lines : List (List UInt8)} (h : inputLines (c ++ r) = lines ++ s.input) :
      s.input = inputLines r := by
    rw [← htaken]
    exact (inputLines_flatten_of_append h).1.symm
  refine ⟨fun r' => ?_, ?_, fun trace htrace => ?_⟩
  · have hagain := @runsWithin_withInput program scope bounds (.start scope (c ++ r) room)
      (by rwa [hruns])
    rw [hruns] at hagain
    obtain ⟨lines, hinput, hsame⟩ := hagain
    have hinput' : inputLines (c ++ r) = lines ++ s.input := hinput
    rw [hrest hinput', inputLines_append hends] at hinput'
    obtain rfl := List.append_cancel_right hinput'
    rw [← hsame, ← inputLines_append hends]
    rfl
  · have htrace := history_of_runsWithin program scope bounds (.start scope (c ++ r) room)
    rwa [hruns] at htrace
  · obtain ⟨lines, hreadout⟩ := htrace.exists_readout
    have hinput : inputLines (c ++ r) = lines ++ s.input := hreadout.input_eq
    rw [hrest hinput] at hinput
    have hoff : ReadOff (c ++ r) lines r := readOff_iff.2 hinput
    exact ⟨lines, hreadout, hoff, (List.append_cancel_right hoff.eq_append).symm⟩

/-- A number is read with a line refused, a line is no text, and a text is read by another run.  The
byte behind these lines makes no difference, and neither would any others. -/
theorem lines_read_by_two_runs :
    let program : Program := ⟨[⟨10, .input "N"⟩, ⟨20, .input "S"⟩, ⟨30, .input "S"⟩,
      ⟨40, .print [.name "N", .name "S"]⟩, ⟨50, .stop⟩]⟩
    let scope : Scope := ⟨⟨"GLOBAL", [⟨"N", .integer⟩, ⟨"S", .string⟩]⟩, []⟩
    let lines : List (List UInt8) := [[120, 13, 10], [32, 55, 10], [255, 10], [98, 13, 10]]
    (∀ r', runTimes program scope 2 (.start scope (lines.flatten ++ r') none) =
      ([.error (.stream .invalidText), .ok true],
        { store := [("N", .integer 7), ("S", .text "b")], next := none, line := some 50,
          input := inputLines r', output := ⟨#[55, 98, 10], none⟩ })) ∧
    ∃ trace s, Readout program scope (.start scope (lines.flatten ++ [99]) none) trace lines s := by
  intro program scope lines
  have hruns : runsWithin program scope (List.replicate 2 lineLimit)
      (.start scope (lines.flatten ++ [99]) none) =
      ([.error (.stream .invalidText), .ok true],
        { store := [("N", .integer 7), ("S", .text "b")], next := none, line := some 50,
          input := [[99]], output := ⟨#[55, 98, 10], none⟩ }) := rfl
  obtain ⟨hsame, ⟨trace, htrace⟩, hall⟩ :=
    unread_input hruns rfl (.inr rfl) (by simp)
  refine ⟨fun r' => (runTimes_eq_runsWithin 2 _).trans (hsame r'), ?_⟩
  obtain ⟨taken, hreadout, hoff, -⟩ := hall trace htrace
  have htaken : inputLines (lines.flatten ++ [99]) = lines ++ inputLines [99] := by decide
  rw [readOff_iff.1 hoff] at htaken
  rw [List.append_cancel_right htaken] at hreadout
  exact ⟨trace, _, hreadout⟩

end LineBasic.Machine
