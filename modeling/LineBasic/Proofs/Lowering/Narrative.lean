import LineBasic.Proofs.Lowering.Statement
import LineBasic.Proofs.Machine.ControlFlow

/-!
# Runs as they are seen

A run of the machine without errors is told by what is seen of it: the number of each line, and
what the line prints.  How a run ends is told by the routine that generated code ends with.

Main definitions:

- `Narrative`: a history without errors, with what is seen of it.
- `Checked.EndsWith`: how runs end, by the routine that control is handed to.
- `Checked.IsRefused`: the output has a limit, and a run prints more than it takes.

Main results:

- `written_of_narrative`: what is seen is what the machine writes.
- `Checked.IsNumeric.error_cases`: the ways in which a line of a program on numbers can fail.
-/

namespace LineBasic

open Assembly Machine

/-! ## What is seen of a run -/

/-- A history without errors, with what is seen of it: the number of each line, and what the line
prints. -/
inductive Narrative (checked : Checked) (s₀ : State) :
    List Event → List Observation → State → Prop
  | start : Narrative checked s₀ [] [] s₀
  | line {trace : List Event} {seen shown : List Observation} {event : Event} {line : Line}
      {s s' : State} (hearlier : Narrative checked s₀ trace seen s)
      (hlast : Advance checked.program checked.scope s event s') (hok : event.error = none)
      (hline : checked.program.lines[event.index]? = some line)
      (hshows : event.stmt.Shows s.store shown) :
    Narrative checked s₀ (trace ++ [event]) (seen ++ .line line.number :: shown) s'

section Narratives

variable {checked : Checked} {s₀ s : State} {trace : List Event} {seen : List Observation}

/-- A narrative tells a history. -/
theorem Narrative.history (h : Narrative checked s₀ trace seen s) :
    History checked.program checked.scope s₀ trace s := by
  induction h with
  | start => exact .refl
  | line _ hlast _ _ _ ih => exact ih.snoc hlast

/-- A narrative tells of no errors. -/
theorem Narrative.error_eq_none (h : Narrative checked s₀ trace seen s) :
    ∀ event ∈ trace, event.error = none := by
  induction h with
  | start => simp
  | line _ _ hok _ _ ih =>
    intro event hevent
    rcases List.mem_append.1 hevent with hearlier | hlast
    · exact ih event hearlier
    · rw [List.mem_singleton.1 hlast]
      exact hok

/-- A run goes on where a narrative ends. -/
theorem Narrative.runFor_eq (h : Narrative checked s₀ trace seen s) (n : Nat) :
    (runFor checked.program checked.scope (trace.length + n)).run s₀ =
      (runFor checked.program checked.scope n).run s :=
  runFor_of_history h.history h.error_eq_none n

/-- A line is not announced while a statement is executed. -/
theorem Stmt.Shows.line_notMem {store : Store} {stmt : Stmt} {shown : List Observation}
    (h : stmt.Shows store shown) (number : Int16) : .line number ∉ shown := by
  cases stmt with
  | print items =>
    rcases h with ⟨values, -, rfl⟩
    intro hmem
    rcases List.mem_append.1 hmem with hvalue | hend
    · rcases List.mem_map.1 hvalue with ⟨v, -, hv⟩
      cases v <;> cases hv
    · cases List.mem_singleton.1 hend
  | _ =>
    obtain rfl : shown = [] := h
    simp

/-- The bytes that an observation puts into the output of a machine. -/
def Assembly.Observation.bytes : Observation → List UInt8
  | line _ => []
  | number n => encode (Value.integer n).render
  | text content => encode content
  | newLine => encode "\n"

/-- The text of items is made of the texts of their values. -/
theorem encode_of_evalItems {store : Store} {items : List Expr} {values : List Value}
    {text : String} (hvalues : items.mapM (eval store) = .ok values)
    (htext : evalItems store items = .ok text) :
    encode text = (values.map Value.observation).flatMap Observation.bytes := by
  induction items generalizing values text with
  | nil =>
    cases hvalues
    cases htext
    rfl
  | cons e rest ih =>
    rw [List.mapM_cons] at hvalues
    rcases except_bind_eq_ok_iff.1 hvalues with ⟨v, hv, hvalues⟩
    rcases except_bind_eq_ok_iff.1 hvalues with ⟨later, hlater, hvalues⟩
    rcases except_bind_eq_ok_iff.1 htext with ⟨w, hw, htext⟩
    rcases except_bind_eq_ok_iff.1 htext with ⟨behind, hbehind, htext⟩
    cases hvalues
    cases htext
    rw [hv] at hw
    cases hw
    rw [encode_append, ih hlater hbehind, List.map_cons, List.flatMap_cons]
    cases v <;> rfl

/-- What is seen of a statement is what it writes. -/
theorem written_of_performs {program : Program} {scope : Scope} {stmt : Stmt} {s' : State}
    (h : Performs program scope s stmt s') {shown : List Observation}
    (hshows : stmt.Shows s.store shown) :
    s'.output.written.toList = s.output.written.toList ++ shown.flatMap Observation.bytes := by
  cases h with
  | print heval hwrite =>
    rcases hshows with ⟨values, hvalues, rfl⟩
    rw [Output.written_of_write hwrite, encode_append, encode_of_evalItems hvalues heval]
    simp [Observation.bytes]
  | _ =>
    obtain rfl : shown = [] := hshows
    simp

/-- What is seen of a run is what it writes. -/
theorem written_of_narrative (h : Narrative checked s₀ trace seen s) :
    s.output.written.toList =
      s₀.output.written.toList ++ seen.flatMap Observation.bytes := by
  induction h with
  | start => simp
  | line _ hlast hok hline hshows ih =>
    rcases hlast.performs_or_fails with ⟨line, -, -, -, ⟨-, hperforms⟩ | ⟨e, herror, -⟩⟩
    · rw [written_of_performs hperforms hshows]
      simp [ih, Observation.bytes]
    · rw [hok] at herror
      cases herror

end Narratives

/-! ## How runs end -/

/-- How runs end, by the routine that control is handed to. -/
def Checked.EndsWith (checked : Checked) (s₀ : State) : Routine → Prop
  | .terminateProgram =>
    ∃ n s, (runFor checked.program checked.scope n).run s₀ = .ok true s
  | .pcOutOfRange =>
    ∃ n last s, (runFor checked.program checked.scope n).run s₀ = .error (.pcOutOfRange last) s
  | .arithmeticOverflow =>
    ∃ n number s,
      (runFor checked.program checked.scope n).run s₀ = .error (.onLine number .overflow) s
  | .divisionByZero =>
    ∃ n number s,
      (runFor checked.program checked.scope n).run s₀ = .error (.onLine number .divisionByZero) s
  | _ => False

/-- The output has a limit, and a run prints more than it takes. -/
def Checked.IsRefused (checked : Checked) (s₀ : State) : Prop :=
  s₀.output.room ≠ none ∧
    ∃ n s, (runFor checked.program checked.scope n).run s₀ = .error (.stream .full) s

/-- Each fault of arithmetic has a routine that reports it. -/
theorem Machine.Fault.IsArithmetic.exists_routine? {fault : Fault} (h : fault.IsArithmetic) :
    ∃ r, fault.routine? = some r := by
  rcases h with rfl | rfl
  · exact ⟨_, rfl⟩
  · exact ⟨_, rfl⟩

section Endings

variable {checked : Checked} {input : List UInt8} {room : Option Nat} {trace : List Event}
  {seen : List Observation} {s s' : State} {event : Event}

/-- The way in which a line of a program on numbers can fail: its arithmetic faults, it returns
without a call, or the output is full. -/
theorem Checked.IsNumeric.error_cases (hnumeric : checked.IsNumeric)
    (hwell : checked.WellFormed)
    (hhistory : History checked.program checked.scope (.start checked.scope input room) trace s)
    (hadvance : Advance checked.program checked.scope s event s') {e : RuntimeError}
    (herror : event.error = some e) :
    ∃ number, (∃ fault r, e = .onLine number fault ∧ fault.routine? = some r) ∨
      e = .onLine number .emptyStack ∨ e = .stream .full ∧ s.output.room ≠ none := by
  rcases hadvance.performs_or_fails with ⟨line, -, hline, hstmt, ⟨hnone, -⟩ | ⟨e', he', hfails⟩⟩
  · rw [herror] at hnone
    cases hnone
  · rw [herror] at he'
    cases he'
    refine ⟨line.number, ?_⟩
    have hmem := List.mem_of_getElem? hline
    have htyped := (hwell.typed line hmem).active s.store
    have hcanonical := (hwell.canonical line hmem).active s.store
    have hstore := hwell.symbols_eq hhistory
    rw [← hstmt] at htyped hcanonical
    generalize event.stmt = stmt at hfails hstmt htyped hcanonical
    cases hfails with
    | assign heval =>
      rcases htyped with ⟨type, -, hvalue⟩
      have harith := isArithmetic_of_eval_eq_error hwell.isGlobal hstore hvalue heval
      rcases harith.exists_routine? with ⟨r, hr⟩
      exact .inl ⟨_, r, rfl, hr⟩
    | @inputText name | @inputNumber name =>
      rcases line.stmt.active_eq_core_or s.store with hcore | ⟨lhs, op, rhs, body, hcond⟩
      · rw [← hstmt] at hcore
        exact absurd hcore.symm (hnumeric.reads_nothing line hmem name)
      · rw [hcond] at hstmt
        cases hstmt
    | items heval =>
      have harith := isArithmetic_of_evalItems_eq_error hwell.isGlobal hstore htyped heval
      rcases harith.exists_routine? with ⟨r, hr⟩
      exact .inl ⟨_, r, rfl, hr⟩
    | output _ hwrite =>
      refine .inr (.inr ⟨rfl, fun hroom => ?_⟩)
      cases (Output.of_room_eq_none hroom hwrite).1
    | condLeft hlhs =>
      rcases htyped with ⟨⟨type, hl, -⟩, -⟩
      obtain rfl := type_eq_integer hwell hnumeric hcanonical.1 hl
      have harith := isArithmetic_of_evalNumber_eq_error hwell.isGlobal hstore hl hlhs
      rcases harith.exists_routine? with ⟨r, hr⟩
      exact .inl ⟨_, r, rfl, hr⟩
    | condRight _ hrhs =>
      rcases htyped with ⟨⟨type, -, hr⟩, -⟩
      obtain rfl := type_eq_integer hwell hnumeric hcanonical.2.1 hr
      have harith := isArithmetic_of_evalNumber_eq_error hwell.isGlobal hstore hr hrhs
      rcases harith.exists_routine? with ⟨r, hroutine⟩
      exact .inl ⟨_, r, rfl, hroutine⟩
    | ret => exact .inr (.inl rfl)

end Endings

end LineBasic
