import LineBasic.Proofs.Processor.Basic

/-!
# Steps of a processor

A processor does one thing at a time and has no choice, so two of its runs from the same state
agree as far as both of them go.

Main definitions:

- `Steps`: a number of steps, and what is seen in them.
- `Reaches` and `Hands`: runs that get to a place of the listing, or to a routine that ends it.
- `AtTrap` and `Traps`: runs that get to a division that the processor cannot make.

Main results:

- `Steps.trans` and `Steps.split`: runs one after the other.
- `Steps.unique`: there is one run of each length.
- `Steps.exists_step?_of_lt`: no run stops on its way.
- `Steps.le_of_stuck`: no run goes on where there is no step.
- `Steps.notAt_of_lt`: a run gets to no line without announcing it.
-/

namespace LineBasic.Assembly

variable {listing : List Item}

/-! ## Runs -/

/-- A processor gets from one state to another in a number of steps. -/
inductive Steps (listing : List Item) : Nat → Processor → List Observation → Processor → Prop
  | refl {p : Processor} : Steps listing 0 p [] p
  | head {n : Nat} {p m p' : Processor} {seen later : List Observation}
      (hstep : step? listing p = some (seen, m)) (hrest : Steps listing n m later p') :
    Steps listing (n + 1) p (seen ++ later) p'

namespace Steps

/-- A run goes on where another one ends. -/
theorem trans {n k : Nat} {p m p' : Processor} {seen later : List Observation}
    (hfirst : Steps listing n p seen m) (hsecond : Steps listing k m later p') :
    Steps listing (n + k) p (seen ++ later) p' := by
  induction hfirst with
  | refl => simpa using hsecond
  | @head n p m₀ m seen₀ seen₁ hstep _ ih =>
    rw [List.append_assoc, Nat.add_right_comm]
    exact head hstep (ih hsecond)

/-- A run can be cut in two behind any number of steps. -/
theorem split {n k : Nat} {p p' : Processor} {all : List Observation}
    (h : Steps listing (n + k) p all p') :
    ∃ m seen later, all = seen ++ later ∧ Steps listing n p seen m ∧
      Steps listing k m later p' := by
  induction n generalizing p all with
  | zero =>
    rw [Nat.zero_add] at h
    exact ⟨p, [], all, rfl, refl, h⟩
  | succ n ih =>
    rw [Nat.succ_add] at h
    cases h with
    | head hstep hrest =>
      rcases ih hrest with ⟨m, seen, later, rfl, hfirst, hsecond⟩
      exact ⟨m, _, later, (List.append_assoc ..).symm, head hstep hfirst, hsecond⟩

/-- There is one run of each length. -/
theorem unique {n : Nat} {p m m' : Processor} {seen seen' : List Observation}
    (h : Steps listing n p seen m) (h' : Steps listing n p seen' m') : seen = seen' ∧ m = m' := by
  induction h generalizing seen' with
  | refl =>
    cases h'
    exact ⟨rfl, rfl⟩
  | head hstep _ ih =>
    cases h' with
    | head hstep' hrest' =>
      rw [hstep] at hstep'
      cases hstep'
      rcases ih hrest' with ⟨rfl, rfl⟩
      exact ⟨rfl, rfl⟩

/-- Inside a run there is a step from every state, and the run shows what is seen in it. -/
theorem exists_step?_of_lt {n k : Nat} {p m m' : Processor} {shown seen : List Observation}
    (h : Steps listing n p shown m) (h' : Steps listing k p seen m') (hlt : k < n) :
    ∃ here next, step? listing m' = some (here, next) ∧ ∀ o ∈ here, o ∈ shown := by
  have hsum : n = k + (n - k - 1 + 1) := by omega
  rw [hsum] at h
  rcases h.split with ⟨middle, first, later, rfl, hfirst, hsecond⟩
  rcases hfirst.unique h' with ⟨-, rfl⟩
  cases hsecond with
  | head hstep _ =>
    refine ⟨_, _, hstep, fun o ho => ?_⟩
    exact List.mem_append_right _ (List.mem_append_left _ ho)

/-- No run goes on where there is no step. -/
theorem le_of_stuck {n k : Nat} {p m m' : Processor} {seen seen' : List Observation}
    (h : Steps listing n p seen m) (hstuck : step? listing m = none)
    (h' : Steps listing k p seen' m') : k ≤ n := by
  apply Nat.le_of_not_lt
  intro hlt
  obtain ⟨here, next, hstep, -⟩ := h'.exists_step?_of_lt h hlt
  rw [hstuck] at hstep
  cases hstep

/-- There is only one such state. -/
theorem eq_of_stuck {n k : Nat} {p m m' : Processor} {seen seen' : List Observation}
    (h : Steps listing n p seen m) (hm : step? listing m = none) (h' : Steps listing k p seen' m')
    (hm' : step? listing m' = none) : m' = m := by
  obtain rfl := Nat.le_antisymm (h'.le_of_stuck hm' h) (h.le_of_stuck hm h')
  exact (h'.unique h).2

/-- There is no step behind the end of a program. -/
theorem le_of_handed {n k : Nat} {p m m' : Processor} {seen seen' : List Observation} {r : Routine}
    (h : Steps listing n p seen m) (hhanded : m.control = .handed r)
    (h' : Steps listing k p seen' m') : k ≤ n :=
  h.le_of_stuck (by rw [step?, hhanded]) h'

/-- Inside a run that announces no line, control is at no label of a line, and not at the end of
the program. -/
theorem notAt_of_lt {n k : Nat} {p m m' : Processor} {shown seen : List Observation}
    (h : Steps listing n p shown m) (hshown : ∀ number, .line number ∉ shown)
    (h' : Steps listing k p seen m') (hlt : k < n) :
    (∀ r, m'.control ≠ .handed r) ∧
      ∀ q number, m'.control = .running q → listing[q]? ≠ some (.label (.line number)) := by
  obtain ⟨here, next, hstep, hhere⟩ := h.exists_step?_of_lt h' hlt
  constructor
  · intro r hhanded
    rw [step?, hhanded] at hstep
    cases hstep
  · intro q number hcontrol hitem
    rw [step?, hcontrol] at hstep
    simp only [hitem] at hstep
    cases hstep
    exact hshown number (hhere _ List.mem_cons_self)

end Steps

/-- A processor gets to a place of the listing, with its cells as they were. -/
def Reaches (listing : List Item) (p : Processor) (seen : List Observation) (q : Nat)
    (stack : List Word) : Prop :=
  ∃ n p', Steps listing n p seen p' ∧ p'.control = .running q ∧ p'.cells = p.cells ∧
    p'.stack = stack

/-- A processor hands control to a routine that ends the program. -/
def Hands (listing : List Item) (p : Processor) (seen : List Observation) (r : Routine) : Prop :=
  ∃ n p', Steps listing n p seen p' ∧ p'.control = .handed r

/-- A run that goes on from where another one gets to. -/
theorem Reaches.trans {p : Processor} {seen later : List Observation} {q q' : Nat}
    {stack stack' : List Word} (h : Reaches listing p seen q stack)
    (hnext : ∀ m, m.control = .running q → m.cells = p.cells → m.stack = stack →
      Reaches listing m later q' stack') : Reaches listing p (seen ++ later) q' stack' := by
  rcases h with ⟨n, m, hsteps, hcontrol, hcells, hstack⟩
  rcases hnext m hcontrol hcells hstack with ⟨k, p', hrest, hcontrol', hcells', hstack'⟩
  exact ⟨n + k, p', hsteps.trans hrest, hcontrol', hcells'.trans hcells, hstack'⟩

/-! ## One instruction -/

/-- At an instruction, a step is its execution. -/
theorem step?_instr {p : Processor} {q : Nat} {i : Instr} (hcontrol : p.control = .running q)
    (hitem : listing[q]? = some (.instr i)) : step? listing p = execInstr? listing q p i := by
  rw [step?, hcontrol]
  simp only [hitem]

/-- At an instruction that can be executed, a run begins with it. -/
theorem Steps.instr {n q : Nat} {p m p' : Processor} {seen later : List Observation} {i : Instr}
    (hcontrol : p.control = .running q) (hitem : listing[q]? = some (.instr i))
    (hexec : execInstr? listing q p i = some (seen, m)) (hrest : Steps listing n m later p') :
    Steps listing (n + 1) p (seen ++ later) p' :=
  Steps.head ((step?_instr hcontrol hitem).trans hexec) hrest

/-- The same for an instruction of which nothing is seen. -/
theorem Steps.silent {n q : Nat} {p m p' : Processor} {later : List Observation} {i : Instr}
    (hcontrol : p.control = .running q) (hitem : listing[q]? = some (.instr i))
    (hexec : execInstr? listing q p i = some ([], m)) (hrest : Steps listing n m later p') :
    Steps listing (n + 1) p later p' :=
  Steps.instr hcontrol hitem hexec hrest

/-! ## Divisions that cannot be made -/

/-- A processor is at the division of -32768 by 1, the quotient of which it does not deliver. -/
structure AtTrap (listing : List Item) (p : Processor) : Prop where
  exists_idiv : ∃ q, p.control = .running q ∧ listing[q]? = some (.instr (.idiv .bx))
  ax_eq : p.registers.ax = .number (-32768)
  dx_eq : p.registers.dx = .number (-1)
  bx_eq : p.registers.bx = .number 1

/-- A processor gets to such a division. -/
def Traps (listing : List Item) (p : Processor) (seen : List Observation) : Prop :=
  ∃ n p', Steps listing n p seen p' ∧ AtTrap listing p'

/-- There is no step from it. -/
theorem AtTrap.step?_eq_none {p : Processor} (h : AtTrap listing p) : step? listing p = none := by
  obtain ⟨q, hcontrol, hitem⟩ := h.exists_idiv
  have hbx : p.readNumber? .bx = some 1 := by
    rw [Processor.readNumber?, Processor.read?, Registers.get, h.bx_eq]
    rfl
  have hout : ¬ IsQuotient (((-1 : Int16).toInt * 65536 + (-32768 : Int16).toInt % 65536).tdiv
      (1 : Int16).toInt) := by decide
  rw [step?_instr hcontrol hitem]
  simp only [execInstr?, h.ax_eq, h.dx_eq, hbx, Word.number?, Option.bind_eq_bind, Option.bind_some]
  exact if_pos (.inr hout)

/-- No run that gets to such a division gets to the end of the program. -/
theorem Steps.control_ne_handed {n k : Nat} {p m m' : Processor} {seen seen' : List Observation}
    (h : Steps listing n p seen m) (htrap : AtTrap listing m) (h' : Steps listing k p seen' m')
    (r : Routine) : m'.control ≠ .handed r := by
  intro hhanded
  obtain ⟨q, hcontrol, -⟩ := htrap.exists_idiv
  have hsame := h.eq_of_stuck htrap.step?_eq_none h' (by rw [step?, hhanded])
  rw [hsame, hcontrol] at hhanded
  cases hhanded

/-- A run that gets to one that gets there. -/
theorem Traps.of_steps {n : Nat} {p m : Processor} {seen later : List Observation}
    (hsteps : Steps listing n p seen m) (h : Traps listing m later) :
    Traps listing p (seen ++ later) := by
  rcases h with ⟨k, p', hrest, htrap⟩
  exact ⟨n + k, p', hsteps.trans hrest, htrap⟩

end LineBasic.Assembly
