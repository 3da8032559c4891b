import LineBasic.Lowering.Statement
import LineBasic.Machine.Value
import LineBasic.Proofs.Processor.Steps

/-!
# Arithmetic of the processor and of the language

The language computes exactly or faults, the processor computes in sixteen bits and sets flags.
Both say the same: the overflow flag tells whether a result is out of range, and the flags of a
difference tell how its two sides compare.  They differ in one division only, that of -32768 by 1,
which the processor cannot make.

Main results:

- `number?_eq_ite`: a result is in range if it survives the cut to sixteen bits.
- `holds?_negation`: the jump behind a comparison is taken exactly if the relation fails.
- `isQuotient_tdiv_iff`: the divisions that the processor can make.
- `delivers_guarded` and `traps_or_delivers_division`: the code of operations computes them.
-/

namespace LineBasic

open Assembly Machine

/-! ## Results in range -/

/-- A number is in range if it survives the cut to sixteen bits. -/
theorem number?_eq_ite (x : Int) :
    number? x = if (Int16.ofInt x).toInt = x then some (Int16.ofInt x) else none := by
  unfold number?
  by_cases h : -32768 ≤ x ∧ x ≤ 32767
  · have hround : (Int16.ofInt x).toInt = x :=
      Int16.toInt_ofInt_of_le (by simpa using by omega) (by simpa using by omega)
    rw [if_pos h, if_pos hround]
  · have hround : (Int16.ofInt x).toInt ≠ x := by
      have hlow := (Int16.ofInt x).le_toInt
      have hhigh := (Int16.ofInt x).toInt_lt
      intro heq
      omega
    rw [if_neg h, if_neg hround]

/-! ## Comparisons -/

/-- A difference that is cut to zero is one of equal numbers. -/
theorem ofInt_sub_eq_zero_iff (l r : Int16) : Int16.ofInt (l.toInt - r.toInt) = 0 ↔ l = r := by
  have hl := l.le_toInt
  have hl' := l.toInt_lt
  have hr := r.le_toInt
  have hr' := r.toInt_lt
  rw [← Int16.toInt_inj, ← Int16.toInt_inj, Int16.toInt_ofInt, Int.bmod_def]
  simp
  omega

/-- The sign of a difference is right if it does not overflow, and wrong if it does. -/
theorem ofInt_sub_sign_iff (l r : Int16) :
    (Int16.ofInt (l.toInt - r.toInt) < 0 ↔
      (Int16.ofInt (l.toInt - r.toInt)).toInt ≠ l.toInt - r.toInt) ↔ r ≤ l := by
  have hl := l.le_toInt
  have hl' := l.toInt_lt
  have hr := r.le_toInt
  have hr' := r.toInt_lt
  rw [Int16.lt_iff_toInt_lt, Int16.le_iff_toInt_le, Int16.toInt_ofInt, Int.bmod_def]
  simp
  omega

/-- The condition of a jump behind a comparison, said of the two sides. -/
theorem holds?_negation_eq (op : Relop) (l r : Int16) :
    (Flags.ofExact (l.toInt - r.toInt)).holds? op.negation = some (
      match op with
      | .less => decide (r ≤ l)
      | .lessEqual => !decide (l = r) && decide (r ≤ l)
      | .greater => decide (l = r) || !decide (r ≤ l)
      | .greaterEqual => !decide (r ≤ l)
      | .equal => !decide (l = r)
      | .notEqual => decide (l = r)) := by
  have hzero := ofInt_sub_eq_zero_iff l r
  have hsign := ofInt_sub_sign_iff l r
  have hsame : (decide (Int16.ofInt (l.toInt - r.toInt) < 0) ==
      decide ((Int16.ofInt (l.toInt - r.toInt)).toInt ≠ l.toInt - r.toInt)) = decide (r ≤ l) := by
    rw [Bool.eq_iff_iff, beq_iff_eq, decide_eq_decide, decide_eq_true_iff]
    exact hsign
  have hdiffer : (decide (Int16.ofInt (l.toInt - r.toInt) < 0) !=
      decide ((Int16.ofInt (l.toInt - r.toInt)).toInt ≠ l.toInt - r.toInt)) =
      !decide (r ≤ l) := by
    rw [bne, hsame]
  cases op <;> simp only [Flags.holds?, Flags.ofExact, Relop.negation, Option.map_some, hzero,
    Option.bind_eq_bind, Option.bind_some, Option.pure_def, hsame, hdiffer]

/-- The jump behind a comparison is taken exactly if the relation does not hold. -/
theorem holds?_negation (op : Relop) (l r : Int16) :
    (Flags.ofExact (l.toInt - r.toInt)).holds? op.negation =
      some (!op.holds (compare l r)) := by
  have hcompare : compare l r = if l < r then .lt else if l = r then .eq else .gt := rfl
  rw [holds?_negation_eq, hcompare]
  by_cases hlt : l < r
  · have hle : ¬ r ≤ l := Int16.not_le.2 hlt
    have hne : l ≠ r := Int16.ne_of_lt hlt
    cases op <;> simp [hlt, hle, hne, Relop.holds]
  · have hle : r ≤ l := Int16.not_lt.1 hlt
    by_cases heq : l = r
    · cases op <;> simp [heq, Relop.holds]
    · cases op <;> simp [hlt, hle, heq, Relop.holds]

/-! ## Operations -/

section Operations

variable {listing : List Item} {q : Nat}

/-- An instruction that puts a result of two numbers into the place of the left one, and tells by
a flag whether it is out of range. -/
def Computes (listing : List Item) (i : Instr) (l r : Int16) (result : Int) : Prop :=
  ∀ (q : Nat) (p : Processor), p.registers.ax = .number l → p.registers.bx = .number r →
    ∃ p', execInstr? listing q p i = some ([], p') ∧ p'.control = .running (q + 1) ∧
      p'.registers.ax = .number (.ofInt result) ∧
      p'.flags.overflow = some (decide ((Int16.ofInt result).toInt ≠ result)) ∧
      p'.cells = p.cells ∧ p'.stack = p.stack

/-- The processor adds. -/
theorem computes_add (listing : List Item) (l r : Int16) :
    Computes listing (.add .ax .bx) l r (l.toInt + r.toInt) := by
  intro q p hax hbx
  refine ⟨{ p with
    flags := .ofExact (l.toInt + r.toInt)
    registers := p.registers.set .ax (.number (.ofInt (l.toInt + r.toInt)))
    control := .running (q + 1) }, ?_, rfl, rfl, rfl, rfl, rfl⟩
  simp [execInstr?, Processor.readNumber?, Processor.read?, Registers.get, hax, hbx, Word.number?,
    Processor.write?, Processor.goTo]

/-- The processor subtracts. -/
theorem computes_sub (listing : List Item) (l r : Int16) :
    Computes listing (.sub .ax .bx) l r (l.toInt - r.toInt) := by
  intro q p hax hbx
  refine ⟨{ p with
    flags := .ofExact (l.toInt - r.toInt)
    registers := p.registers.set .ax (.number (.ofInt (l.toInt - r.toInt)))
    control := .running (q + 1) }, ?_, rfl, rfl, rfl, rfl, rfl⟩
  simp [execInstr?, Processor.readNumber?, Processor.read?, Registers.get, hax, hbx, Word.number?,
    Processor.write?, Processor.goTo]

/-- The processor multiplies. -/
theorem computes_imul (listing : List Item) (l r : Int16) :
    Computes listing (.imul .bx) l r (l.toInt * r.toInt) := by
  intro q p hax hbx
  refine ⟨{ p with
    registers := { p.registers with
      ax := .number (.ofInt (l.toInt * r.toInt))
      dx := .number (.ofInt (l.toInt * r.toInt / 65536)) }
    flags := ⟨none, none,
      some (decide ((Int16.ofInt (l.toInt * r.toInt)).toInt ≠ l.toInt * r.toInt))⟩
    control := .running (q + 1) }, ?_, rfl, rfl, rfl, rfl, rfl⟩
  simp [execInstr?, Processor.readNumber?, Processor.read?, Registers.get, hax, hbx, Word.number?,
    Processor.goTo]

/-- The code of operations and of conditions begins by taking both operands from the stack. -/
theorem steps_pop_operands (hpop : listing[q]? = some (.instr (.pop .bx)))
    (hpop' : listing[q + 1]? = some (.instr (.pop .ax))) (registers : Registers) (flags : Flags)
    (cells : Label → Option Word) (l r : Word) (rest : List Word) :
    Steps listing 2 ⟨.running q, registers, flags, cells, r :: l :: rest⟩ []
      ⟨.running (q + 2), (registers.set .bx r).set .ax l, flags, cells, rest⟩ :=
  .silent rfl hpop rfl (.silent rfl hpop' rfl .refl)

/-- A comparison with a jump behind it leaves all but the flags alone, and control goes on behind
the jump unless its condition holds. -/
theorem exists_steps_compare {dst src : Operand} {cond : Condition} {target : Label}
    {l r : Int16} {taken : Bool} {control : Control} {registers : Registers}
    (hcmp : listing[q]? = some (.instr (.cmp dst src)))
    (hjump : listing[q + 1]? = some (.instr (.jump cond target)))
    (hdst : ∀ p : Processor, p.registers = registers → p.readNumber? dst = some l)
    (hsrc : ∀ p : Processor, p.registers = registers → p.readNumber? src = some r)
    (hholds : (Flags.ofExact (l.toInt - r.toInt)).holds? cond = some taken)
    (htarget : jumpTarget? listing (q + 1) target = some control)
    (flags : Flags) (cells : Label → Option Word) (stack : List Word) :
    ∃ flags', Steps listing 2 ⟨.running q, registers, flags, cells, stack⟩ []
      ⟨if taken then control else .running (q + 2), registers, flags', cells, stack⟩ := by
  have hcompares : execInstr? listing q ⟨.running q, registers, flags, cells, stack⟩
      (.cmp dst src) = some ([], ⟨.running (q + 1), registers, .ofExact (l.toInt - r.toInt), cells,
        stack⟩) := by
    have hl := hdst ⟨.running q, registers, flags, cells, stack⟩ rfl
    have hr := hsrc ⟨.running q, registers, flags, cells, stack⟩ rfl
    simp [execInstr?, hl, hr, Processor.goTo]
  have hgoes : execInstr? listing (q + 1)
      ⟨.running (q + 1), registers, .ofExact (l.toInt - r.toInt), cells, stack⟩
      (.jump cond target) = some ([], ⟨if taken then control else .running (q + 2), registers,
        .ofExact (l.toInt - r.toInt), cells, stack⟩) := by
    cases taken <;> simp [execInstr?, hholds, htarget, Processor.goTo]
  exact ⟨_, .silent rfl hcmp hcompares (.silent rfl hjump hgoes .refl)⟩

/-- The routine that reports a fault of arithmetic. -/
def Machine.Fault.routine? : Fault → Option Routine
  | .overflow => some .arithmeticOverflow
  | .divisionByZero => some .divisionByZero
  | _ => none

/-- An answer is on the stack when control gets to a place, or its fault is reported. -/
def Delivers (listing : List Item) (p : Processor) (q : Nat) (rest : List Word) :
    Except Fault Int16 → Prop
  | .ok n => Reaches listing p [] q (.number n :: rest)
  | .error fault => ∃ r, fault.routine? = some r ∧ Hands listing p [] r

/-- The result of an operation that is tested for overflow is on the stack, or the test leads to
the end of the program. -/
theorem delivers_guarded {i : Instr} {l r : Int16} {result : Int}
    (hi : Computes listing i l r result) (hplaced : Placed listing q (guarded i)) {p : Processor}
    (hcontrol : p.control = .running q) {rest : List Word}
    (hstack : p.stack = .number r :: .number l :: rest) :
    Delivers listing p (q + 5) rest
      (match number? result with
      | some n => .ok n
      | none => .error .overflow) := by
  have hpop := hplaced.head
  have hpop' := hplaced.tail.head
  have hop := hplaced.tail.tail.head
  have hjump := hplaced.tail.tail.tail.head
  have hpush := hplaced.tail.tail.tail.tail.head
  have hoperands := steps_pop_operands hpop hpop'
  rcases p with ⟨control, registers, flags, cells, stack⟩
  cases hcontrol
  cases hstack
  obtain ⟨m, hexec, hmcontrol, hax, hflag, hcells, hstack⟩ := hi (q + 1 + 1)
    ⟨.running (q + 1 + 1), (registers.set .bx (.number r)).set .ax (.number l), flags, cells, rest⟩
    rfl rfl
  rw [number?_eq_ite]
  by_cases hfits : (Int16.ofInt result).toInt = result
  · rw [if_pos hfits]
    have hclear : m.flags.overflow = some false := by
      rw [hflag, decide_eq_false fun hne => hne hfits]
    have hgoes : execInstr? listing (q + 1 + 1 + 1) m
        (.jump .o (.routine .arithmeticOverflow)) = some ([], m.goTo (q + 1 + 1 + 1 + 1)) := by
      simp [execInstr?, Flags.holds?, hclear]
    have hends : execInstr? listing (q + 1 + 1 + 1 + 1) (m.goTo (q + 1 + 1 + 1 + 1)) (.push .ax) =
        some ([], ((m.goTo (q + 1 + 1 + 1 + 1)).push (.number (.ofInt result))).goTo (q + 5)) := by
      simp [execInstr?, Processor.read?, Registers.get, Processor.goTo, hax]
    have hsteps := (hoperands registers flags cells _ _ rest).trans (.silent rfl hop hexec
      (.silent hmcontrol hjump hgoes (.silent rfl hpush hends .refl)))
    refine ⟨5, _, hsteps, rfl, hcells, ?_⟩
    change Word.number _ :: m.stack = _
    rw [hstack]
  · rw [if_neg hfits]
    have hset : m.flags.overflow = some true := by
      rw [hflag, decide_eq_true hfits]
    have hleaves : execInstr? listing (q + 1 + 1 + 1) m
        (.jump .o (.routine .arithmeticOverflow)) =
          some ([], { m with control := .handed .arithmeticOverflow }) := by
      simp [execInstr?, Flags.holds?, hset, jumpTarget?, Routine.isFinal]
    have hsteps := (hoperands registers flags cells _ _ rest).trans (.silent rfl hop hexec
      (.silent hmcontrol hjump hleaves .refl))
    exact ⟨.arithmeticOverflow, rfl, 4, _, hsteps, rfl⟩

/-- The flags of a comparison tell whether its sides are equal. -/
theorem holds?_e_iff (l r : Int16) :
    (Flags.ofExact (l.toInt - r.toInt)).holds? .e = some (decide (l = r)) := by
  simp only [Flags.holds?, Flags.ofExact, ofInt_sub_eq_zero_iff]

/-- The flags of a comparison tell whether its sides differ. -/
theorem holds?_ne_iff (l r : Int16) :
    (Flags.ofExact (l.toInt - r.toInt)).holds? .ne = some (!decide (l = r)) := by
  simp only [Flags.holds?, Flags.ofExact, ofInt_sub_eq_zero_iff, Option.map_some]

/-- The processor can make all divisions but two. -/
theorem isQuotient_tdiv_iff {l r : Int16} (hr : r ≠ 0) :
    IsQuotient (l.toInt.tdiv r.toInt) ↔ ¬ (l = -32768 ∧ (r = 1 ∨ r = -1)) := by
  have hl := l.le_toInt
  have hl' := l.toInt_lt
  have hzero : r.toInt ≠ 0 := fun heq => hr (Int16.toInt_inj.1 heq)
  have habs : (l.toInt.tdiv r.toInt).natAbs = l.toInt.natAbs / r.toInt.natAbs :=
    Int.natAbs_tdiv ..
  have hle : l.toInt.natAbs / r.toInt.natAbs ≤ l.toInt.natAbs := Nat.div_le_self ..
  unfold IsQuotient
  constructor
  · rintro hquotient ⟨rfl, rfl | rfl⟩
    · exact absurd hquotient (by decide)
    · exact absurd hquotient (by decide)
  · intro hother
    by_cases hsmall : l.toInt.natAbs ≤ 32767
    · omega
    · have hmin : l = -32768 := Int16.toInt_inj.1 (show l.toInt = -32768 by omega)
      have hone : r.toInt ≠ 1 := fun heq => hother ⟨hmin, .inl (Int16.toInt_inj.1 heq)⟩
      have hminus : r.toInt ≠ -1 := fun heq => hother ⟨hmin, .inr (Int16.toInt_inj.1 heq)⟩
      -- a divisor that is neither one nor minus one at least halves
      have hhalf : l.toInt.natAbs / r.toInt.natAbs ≤ l.toInt.natAbs / 2 :=
        Nat.div_le_div_left (by omega) (by omega)
      omega

/-- A quotient that the processor delivers is a number. -/
theorem number?_of_isQuotient {x : Int} (h : IsQuotient x) : number? x = some (.ofInt x) :=
  if_pos ⟨by unfold IsQuotient at h; omega, h.2⟩

/-- A number that was extended to two registers is in both together. -/
theorem extended_eq (l : Int16) :
    (if l < 0 then (-1 : Int16) else 0).toInt * 65536 + l.toInt % 65536 = l.toInt := by
  have hl := l.le_toInt
  have hl' := l.toInt_lt
  by_cases hneg : l < 0
  · rw [if_pos hneg]
    rw [Int16.lt_iff_toInt_lt] at hneg
    simp at hneg ⊢
    omega
  · rw [if_neg hneg]
    rw [Int16.lt_iff_toInt_lt] at hneg
    simp at hneg ⊢
    omega

/-- The registers with the operands of a division, the left one extended to two. -/
def Assembly.Registers.loaded (registers : Registers) (l r : Int16) : Registers :=
  { registers with ax := .number l, bx := .number r, dx := .number (if l < 0 then -1 else 0) }

variable (listing q) in
/-- The processor divides if it delivers the quotient. -/
theorem execInstr?_idiv {l r : Int16} (hr : r ≠ 0) (hquotient : IsQuotient (l.toInt.tdiv r.toInt))
    (registers : Registers) (flags : Flags) (cells : Label → Option Word) (stack : List Word) :
    execInstr? listing q ⟨.running q, registers.loaded l r, flags, cells, stack⟩ (.idiv .bx) =
      some ([], ⟨.running (q + 1),
        { registers.loaded l r with
          ax := .number (.ofInt (l.toInt.tdiv r.toInt))
          dx := .number (.ofInt (l.toInt.tmod r.toInt)) },
        ⟨none, none, none⟩, cells, stack⟩) := by
  have hsafe : ¬ (r.toInt = 0 ∨ ¬ IsQuotient (l.toInt.tdiv r.toInt)) := by
    rintro (hzero | hout)
    · exact hr (Int16.toInt_inj.1 hzero)
    · exact hout hquotient
  simp only [execInstr?, Processor.readNumber?, Processor.read?, Registers.get, Registers.loaded,
    Word.number?, Option.bind_some, Option.bind_eq_bind, extended_eq, if_neg hsafe]
  rfl

/-- The tests in front of a division report its faults, and let everything else through. -/
theorem tests_division {safe : Spot} (hplaced : Placed listing q (divisionCode safe))
    (registers : Registers) (flags : Flags) (cells : Label → Option Word) (l r : Int16)
    (rest : List Word) :
    let p : Processor := ⟨.running q, registers, flags, cells, .number r :: .number l :: rest⟩
    r = 0 ∧ Hands listing p [] .divisionByZero ∨
      (l = -32768 ∧ r = -1) ∧ Hands listing p [] .arithmeticOverflow ∨
      r ≠ 0 ∧ ¬ (l = -32768 ∧ r = -1) ∧ ∃ n flags',
        Steps listing n p [] ⟨.running (q + 10), registers.loaded l r, flags', cells, rest⟩ := by
  intro p
  have hleft : ∀ p : Processor, p.registers = registers.loaded l r →
      p.readNumber? .ax = some l := by
    rintro ⟨_, _, _, _, _⟩ rfl
    rfl
  have hright : ∀ p : Processor, p.registers = registers.loaded l r →
      p.readNumber? .bx = some r := by
    rintro ⟨_, _, _, _, _⟩ rfl
    rfl
  have hsafe := hplaced.resolve 9 6 safe rfl (by simp [divisionCode, code])
  have hjump : jumpTarget? listing (q + 6) (.inner safe) = some (.running (q + 9)) := by
    simp only [jumpTarget?, hsafe, Option.map_some]
  have hpass (flags' : Flags) :
      Steps listing 1 ⟨.running (q + 9), registers.loaded l r, flags', cells, rest⟩ []
        ⟨.running (q + 10), registers.loaded l r, flags', cells, rest⟩ := by
    have hlabel : listing[q + 9]? = some (.label (.inner safe)) := hplaced.get 9 _ rfl
    have hstep : step? listing ⟨.running (q + 9), registers.loaded l r, flags', cells, rest⟩ =
        some ([], ⟨.running (q + 10), registers.loaded l r, flags', cells, rest⟩) := by
      simp only [step?, hlabel]
      rfl
    exact .head hstep .refl
  have hloaded := (steps_pop_operands (hplaced.get 0 _ rfl) (hplaced.get 1 _ rfl) registers flags
    cells (.number l) (.number r) rest).trans (.silent rfl (hplaced.get 2 _ rfl) rfl .refl)
  obtain ⟨flags₁, hzero⟩ := exists_steps_compare (hplaced.get 3 _ rfl) (hplaced.get 4 _ rfl) hright
    (fun _ _ => rfl) (holds?_e_iff r 0) rfl flags cells rest
  have hfirst := hloaded.trans hzero
  by_cases hr : r = 0
  · rw [decide_eq_true hr] at hfirst
    exact .inl ⟨hr, _, _, hfirst, rfl⟩
  rw [decide_eq_false hr] at hfirst
  obtain ⟨flags₂, hminus⟩ := exists_steps_compare (hplaced.get 5 _ rfl) (hplaced.get 6 _ rfl)
    hright (fun _ _ => rfl) (holds?_ne_iff r (-1)) hjump flags₁ cells rest
  have hsecond := hfirst.trans hminus
  by_cases hone : r = -1
  · rw [decide_eq_true hone] at hsecond
    obtain ⟨flags₃, hleast⟩ := exists_steps_compare (hplaced.get 7 _ rfl) (hplaced.get 8 _ rfl)
      hleft (fun _ _ => rfl) (holds?_e_iff l (-32768)) rfl flags₂ cells rest
    have hthird := hsecond.trans hleast
    by_cases hmin : l = -32768
    · rw [decide_eq_true hmin] at hthird
      exact .inr (.inl ⟨⟨hmin, hone⟩, _, _, hthird, rfl⟩)
    · rw [decide_eq_false hmin] at hthird
      exact .inr (.inr ⟨hr, fun hboth => hmin hboth.1, _, _, hthird.trans (hpass flags₃)⟩)
  · rw [decide_eq_false hone] at hsecond
    exact .inr (.inr ⟨hr, fun hboth => hone hboth.2, _, _, hsecond.trans (hpass flags₂)⟩)

/-- The result of a division, its two faults told apart. -/
theorem apply_div (l r : Int16) :
    apply .div l r = if r = 0 then .error .divisionByZero else
      match number? (l.toInt.tdiv r.toInt) with
      | some n => .ok n
      | none => .error .overflow := by
  unfold apply
  by_cases hr : r = 0
  · rw [if_pos ⟨rfl, hr⟩, if_pos hr]
  · rw [if_neg fun h => hr h.2, if_neg hr]
    rfl

/-- A division delivers its quotient or reports its fault, unless it is the one that its tests let
through although the processor cannot make it. -/
theorem traps_or_delivers_division {safe : Spot} (hplaced : Placed listing q (divisionCode safe))
    {p : Processor} (hcontrol : p.control = .running q) {l r : Int16} {rest : List Word}
    (hstack : p.stack = .number r :: .number l :: rest) :
    (l = -32768 ∧ r = 1) ∧ Traps listing p [] ∨
      ¬ (l = -32768 ∧ r = 1) ∧ Delivers listing p (q + 12) rest (apply .div l r) := by
  rcases p with ⟨control, registers, flags, cells, stack⟩
  cases hcontrol
  cases hstack
  have hidiv : listing[q + 10]? = some (.instr (.idiv .bx)) := hplaced.get 10 _ rfl
  have hpush : listing[q + 11]? = some (.instr (.push .ax)) := hplaced.get 11 _ rfl
  rcases tests_division hplaced registers flags cells l r rest with
    ⟨hr, hhands⟩ | ⟨⟨hmin, hone⟩, hhands⟩ | ⟨hr, hother, n, flags', htested⟩
  · rw [apply_div, if_pos hr]
    refine .inr ⟨?_, .divisionByZero, rfl, hhands⟩
    rintro ⟨-, rfl⟩
    cases hr
  · subst hmin hone
    exact .inr ⟨by decide, .arithmeticOverflow, rfl, hhands⟩
  by_cases htraps : l = -32768 ∧ r = 1
  · rcases htraps with ⟨rfl, rfl⟩
    exact .inl ⟨⟨rfl, rfl⟩, n, _, htested, ⟨q + 10, rfl, hidiv⟩, rfl, rfl, rfl⟩
  · have hquotient : IsQuotient (l.toInt.tdiv r.toInt) := by
      refine (isQuotient_tdiv_iff hr).2 ?_
      rintro ⟨hmin, hone | hone⟩
      · exact htraps ⟨hmin, hone⟩
      · exact hother ⟨hmin, hone⟩
    have hexec := execInstr?_idiv listing (q + 10) hr hquotient registers flags' cells rest
    rw [apply_div, if_neg hr, number?_of_isQuotient hquotient]
    exact .inr ⟨htraps, _, _, htested.trans (.silent rfl hidiv hexec (.silent rfl hpush rfl .refl)),
      rfl, rfl, rfl⟩

end Operations

end LineBasic
