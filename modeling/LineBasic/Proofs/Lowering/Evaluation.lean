import Mathlib
import LineBasic.Proofs.Lowering.Expression

/-!
# Expressions evaluated by their code

The code of an expression for numbers can stand anywhere in a listing, be generated behind any
other code, and begin with anything on the stack, in the registers and in the flags.  Where the
machine gives a number, control leaves the code at its end with that number on the stack; where
the machine reports a fault of arithmetic, control leaves it for the routine that reports it.  On
the way nothing is divided that the processor could not divide.  There is one exception: where the
machine divides -32768 by 1, the code comes to a division that the processor cannot make.

Main definition:

- `DividesSafely`: what the processor asks for when it divides.

Main result:

- `evaluates_lowerExpr`: what the code does from its first instruction on.
-/

namespace LineBasic

open Assembly Machine

variable {listing : List Item} {scope : Scope} {store : Store}

/-- The processor can divide by an operand: both registers of the dividend and the operand hold
numbers, the divisor is not zero, and the quotient is one that it delivers. -/
def DividesSafely (p : Processor) (divisor : Operand) : Prop :=
  ∃ low high d : Int16, p.registers.ax = .number low ∧ p.registers.dx = .number high ∧
    p.readNumber? divisor = some d ∧ d ≠ 0 ∧
    IsQuotient ((high.toInt * 65536 + low.toInt % 65536).tdiv d.toInt)

/-- A word with a number is that number. -/
theorem Assembly.Word.eq_of_number? {w : Word} {n : Int16} (h : w.number? = some n) :
    w = .number n := by
  cases w with
  | number m =>
    cases h
    rfl
  | _ => cases h

/-- A division that the processor makes is safe. -/
theorem dividesSafely_of_execInstr? {q : Nat} {p : Processor} {divisor : Operand}
    {outcome : Outcome} (h : execInstr? listing q p (.idiv divisor) = some outcome) :
    DividesSafely p divisor := by
  simp only [execInstr?, Option.bind_eq_bind, Option.bind_eq_some_iff] at h
  obtain ⟨low, hlow, high, hhigh, d, hd, hquotient⟩ := h
  by_cases htraps : d.toInt = 0 ∨
      ¬ IsQuotient ((high.toInt * 65536 + low.toInt % 65536).tdiv d.toInt)
  · rw [if_pos htraps] at hquotient
    cases hquotient
  · rw [not_or, not_not] at htraps
    refine ⟨low, high, d, Word.eq_of_number? hlow, Word.eq_of_number? hhigh, hd, ?_, htraps.2⟩
    rintro rfl
    exact htraps.1 rfl

/-- The division at which it stops is not safe. -/
theorem Assembly.AtTrap.not_dividesSafely {p : Processor} (h : AtTrap listing p) :
    ¬ DividesSafely p .bx := by
  rintro ⟨low, high, d, hlow, hhigh, hd, -, hquotient⟩
  rw [h.ax_eq] at hlow
  rw [h.dx_eq] at hhigh
  rw [Processor.readNumber?, Processor.read?, Registers.get, h.bx_eq] at hd
  cases hlow
  cases hhigh
  cases hd
  exact absurd hquotient (by decide)

/-- Every division in a run, up to its last state, is safe. -/
theorem Assembly.Steps.dividesSafely {n k q : Nat} {p p' m : Processor}
    {shown seen : List Observation} {divisor : Operand} (h : Steps listing n p shown p')
    (hm : Steps listing k p seen m) (hlt : k < n) (hcontrol : m.control = .running q)
    (hitem : listing[q]? = some (.instr (.idiv divisor))) : DividesSafely m divisor := by
  obtain ⟨here, next, hstep, -⟩ := h.exists_step?_of_lt hm hlt
  rw [step?_instr hcontrol hitem] at hstep
  exact dividesSafely_of_execInstr? hstep

/-- The code of an expression stands where its dot labels are new. -/
theorem placed_lowerExpr {e : Expr} {st : LoweringState} {before behind : List Item}
    (hlisting : listing = before ++ ((lowerExpr scope e).run st).1 ++ behind)
    (hfresh : ∀ s ∈ spots ((lowerExpr scope e).run st).1,
      some ⟨ownerBehind none before, .inner s⟩ ∉ definitions none before) :
    Placed listing before.length ((lowerExpr scope e).run st).1 := by
  have hemits := emits_lowerExpr scope e st
  have hnodup := hemits.nodup_spots List.nodup_nil (by simp)
  exact .of_fresh hlisting hfresh hemits.onlyInner hnodup

/-- The label of a line defines no dot label. -/
theorem inner_notMem_definitions_line (number : Int16) (s : Spot) :
    some ⟨ownerBehind none [.label (.line number)], .inner s⟩ ∉
      definitions none [.label (.line number)] := by
  intro hmem
  cases List.mem_singleton.1 hmem

/-- The code of an expression for numbers does what the machine does.  It stands anywhere in a
listing, as long as none of its dot labels is defined before it for the same owner, and the cells of
its variables hold what the variables do.  Then the code runs until control is behind it, with the
value of the expression on top of the stack as it was and no cell changed, or until control is with
the routine that reports the fault of the expression.  Whenever it divides on the way, the divisor
is not zero and the quotient is one that the processor delivers.  Exactly if the machine comes to
the division of -32768 by 1, the code runs until it comes there, too, and the processor cannot make
it. -/
theorem evaluates_lowerExpr {e : Expr} (htype : e.type scope = .ok .integer) {st : LoweringState}
    {before behind : List Item}
    (hlisting : listing = before ++ ((lowerExpr scope e).run st).1 ++ behind)
    (hfresh : ∀ s ∈ spots ((lowerExpr scope e).run st).1,
      some ⟨ownerBehind none before, .inner s⟩ ∉ definitions none before)
    {p : Processor} (hcontrol : p.control = .running before.length)
    (hnames : ∀ x ∈ e.names, ∃ n, store.get? x = some (.integer n) ∧
      p.cells (.var x) = some (.number n)) :
    ∃ n p', Steps listing n p [] p' ∧
      (¬ e.Divides store (-32768) 1 →
        (∃ v, eval store e = .ok (.integer v) ∧
          p'.control = .running (before.length + ((lowerExpr scope e).run st).1.length) ∧
          p'.stack = .number v :: p.stack ∧ p'.cells = p.cells) ∨
        (eval store e = .error .overflow ∧ p'.control = .handed .arithmeticOverflow) ∨
        (eval store e = .error .divisionByZero ∧ p'.control = .handed .divisionByZero)) ∧
      (e.Divides store (-32768) 1 → AtTrap listing p' ∧ ¬ DividesSafely p' .bx) ∧
      ∀ {k m seen q divisor}, Steps listing k p seen m → k < n → m.control = .running q →
        listing[q]? = some (.instr (.idiv divisor)) → DividesSafely m divisor := by
  have hnumeric : e.IsNumeric store := Expr.isNumeric_of_type htype fun x hx => by
    obtain ⟨n, hget, -⟩ := hnames x hx
    exact ⟨n, hget⟩
  rcases traps_or_delivers_of_names htype (placed_lowerExpr hlisting hfresh) hcontrol hnames with
    ⟨hdivides, n, p', hsteps, htrap⟩ | ⟨hnot, hdelivers⟩
  · exact ⟨n, p', hsteps, fun hnot => absurd hdivides hnot,
      fun _ => ⟨htrap, htrap.not_dividesSafely⟩, hsteps.dividesSafely⟩
  rw [hnumeric.eval_eq_map_evalNumber]
  cases hvalue : evalNumber store e with
  | ok v =>
    rw [hvalue] at hdelivers
    obtain ⟨n, p', hsteps, hend, hcells, hstack⟩ := hdelivers
    exact ⟨n, p', hsteps, fun _ => .inl ⟨v, rfl, hend, hstack, hcells⟩,
      fun hdivides => absurd hdivides hnot, hsteps.dividesSafely⟩
  | error fault =>
    rw [hvalue] at hdelivers
    obtain ⟨r, hr, n, p', hsteps, hend⟩ := hdelivers
    refine ⟨n, p', hsteps, fun _ => .inr ?_, fun hdivides => absurd hdivides hnot,
      hsteps.dividesSafely⟩
    cases fault with
    | overflow =>
      cases hr
      exact .inl ⟨rfl, hend⟩
    | divisionByZero =>
      cases hr
      exact .inr ⟨rfl, hend⟩
    | _ => cases hr

/-- The least number is divided by minus one, which overflows, by minus two, which leaves a number
on top of the address that is on the stack, and by one, which the processor cannot do. -/
theorem quotients_evaluated :
    let scope : Scope := ⟨⟨"GLOBAL", [⟨"A", .integer⟩, ⟨"B", .integer⟩]⟩, []⟩
    let e : Expr := .binary .div (.name "A") (.name "B")
    let listing : List Item := .label (.line 10) :: ((lowerExpr scope e).run {}).1
    let start (b : Int16) : Processor :=
      { Processor.fresh listing with
        control := .running 1
        cells := fun l =>
          if l = .var "A" then some (.number (-32768))
          else if l = .var "B" then some (.number b) else none
        stack := [.code 3] }
    (∃ n p', Steps listing n (start (-1)) [] p' ∧ p'.control = .handed .arithmeticOverflow) ∧
      (∃ n p', Steps listing n (start (-2)) [] p' ∧
        p'.control = .running (1 + ((lowerExpr scope e).run {}).1.length) ∧
        p'.stack = [.number 16384, .code 3]) ∧
      ∃ n p', Steps listing n (start 1) [] p' ∧ ¬ DividesSafely p' .bx := by
  intro scope e listing start
  have htype : e.type scope = .ok .integer := by cbv
  have hlisting : listing = [.label (.line 10)] ++ ((lowerExpr scope e).run {}).1 ++ [] := by
    rw [List.append_nil]
    rfl
  have hfresh : ∀ s ∈ spots ((lowerExpr scope e).run {}).1,
      some ⟨ownerBehind none [.label (.line 10)], .inner s⟩ ∉
        definitions none [.label (.line 10)] := fun s _ => inner_notMem_definitions_line 10 s
  let store (b : Int16) : Store := [("A", .integer (-32768)), ("B", .integer b)]
  have hnames (b : Int16) : ∀ x ∈ e.names, ∃ n, (store b).get? x = some (.integer n) ∧
      (start b).cells (.var x) = some (.number n) := by
    intro x hx
    rcases List.mem_cons.1 hx with rfl | hx
    · exact ⟨-32768, by cbv, rfl⟩
    · rw [List.mem_singleton.1 hx]
      exact ⟨b, by cbv, rfl⟩
  have hdivides (b : Int16) : e.Divides (store b) (-32768) 1 ↔ b = 1 := by
    have hleft : evalNumber (store b) (.name "A") = .ok (-32768) := by cbv
    have hright : evalNumber (store b) (.name "B") = .ok b := by cbv
    simp [e, Expr.Divides, hleft, hright]
  have hminusOne : eval (store (-1)) e = .error .overflow := by cbv
  have hminusTwo : eval (store (-2)) e = .ok (.integer 16384) := by cbv
  refine ⟨?_, ?_, ?_⟩
  · obtain ⟨n, p', hsteps, hruns, -, -⟩ :=
      evaluates_lowerExpr htype hlisting hfresh rfl (hnames (-1))
    obtain ⟨v, hv, -⟩ | ⟨-, hend⟩ | ⟨hfault, -⟩ :=
      hruns (mt (hdivides (-1)).1 (by decide))
    · rw [hminusOne] at hv
      cases hv
    · exact ⟨n, p', hsteps, hend⟩
    · rw [hminusOne] at hfault
      cases hfault
  · obtain ⟨n, p', hsteps, hruns, -, -⟩ :=
      evaluates_lowerExpr htype hlisting hfresh rfl (hnames (-2))
    obtain ⟨v, hv, hend, hstack, -⟩ | ⟨hfault, -⟩ | ⟨hfault, -⟩ :=
      hruns (mt (hdivides (-2)).1 (by decide))
    · rw [hminusTwo] at hv
      cases hv
      exact ⟨n, p', hsteps, hend, hstack⟩
    · rw [hminusTwo] at hfault
      cases hfault
    · rw [hminusTwo] at hfault
      cases hfault
  · obtain ⟨n, p', hsteps, -, htraps, -⟩ :=
      evaluates_lowerExpr htype hlisting hfresh rfl (hnames 1)
    exact ⟨n, p', hsteps, (htraps ((hdivides 1).2 rfl)).2⟩

/-- The machine divides 0 - 32767 - 1 by 1, while the code gets to a division that the processor
cannot make, and neither behind itself nor to a routine that reports a fault. -/
theorem least_number_not_divided :
    let e : Expr := .binary .div
      (.binary .sub (.binary .sub (.number 0) (.number 32767)) (.number 1)) (.number 1)
    let scope : Scope := ⟨⟨"GLOBAL", []⟩, []⟩
    let listing : List Item := .label (.line 10) :: ((lowerExpr scope e).run {}).1
    let start : Processor := { Processor.fresh listing with control := .running 1 }
    e.type scope = .ok .integer ∧ eval [] e = .ok (.integer (-32768)) ∧
      (∃ n p' q, Steps listing n start [] p' ∧ p'.control = .running q ∧
        listing[q]? = some (.instr (.idiv .bx)) ∧ ¬ DividesSafely p' .bx) ∧
      ∀ n seen p', Steps listing n start seen p' →
        p'.control ≠ .running (1 + ((lowerExpr scope e).run {}).1.length) ∧
          ∀ r, p'.control ≠ .handed r := by
  intro e scope listing start
  have htype : e.type scope = .ok .integer := by cbv
  have hlisting : listing = [.label (.line 10)] ++ ((lowerExpr scope e).run {}).1 ++ [] := by
    rw [List.append_nil]
    rfl
  have hfresh : ∀ s ∈ spots ((lowerExpr scope e).run {}).1,
      some ⟨ownerBehind none [.label (.line 10)], .inner s⟩ ∉
        definitions none [.label (.line 10)] := fun s _ => inner_notMem_definitions_line 10 s
  have hdivides : e.Divides [] (-32768) 1 := .inr ⟨rfl, by cbv, by cbv⟩
  have hplaced : Placed listing 1 ((lowerExpr scope e).run {}).1 := placed_lowerExpr hlisting hfresh
  have hnames : MirrorsNames [] start.cells e.names := by simp [MirrorsNames, e, Expr.names]
  obtain ⟨-, n, p', hsteps, htrap⟩ | ⟨hnot, -⟩ :=
    traps_or_delivers_of_names (p := start) htype hplaced rfl hnames
  · obtain ⟨q, hcontrol, hitem⟩ := htrap.exists_idiv
    refine ⟨htype, by cbv, ⟨n, p', q, hsteps, hcontrol, hitem, htrap.not_dividesSafely⟩,
      fun k seen m hm => ⟨fun hend => ?_, hsteps.control_ne_handed htrap hm⟩⟩
    have hnone : listing[1 + ((lowerExpr scope e).run {}).1.length]? = none :=
      List.getElem?_eq_none (by rw [List.length_cons, Nat.add_comm])
    have hstuck : step? listing m = none := by
      rw [step?, hend]
      simp only [hnone]
    rw [hsteps.eq_of_stuck htrap.step?_eq_none hm hstuck, hcontrol] at hend
    cases hend
    rw [hnone] at hitem
    cases hitem
  · exact absurd hdivides hnot

end LineBasic
