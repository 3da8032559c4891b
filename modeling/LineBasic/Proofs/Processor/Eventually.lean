import LineBasic.Assembly.Routines
import LineBasic.Proofs.Processor.Bytes

/-!
# Runs of a processor with bytes

A computer that executes a listing gets to something if it is there, or gets to it from where it
goes next.  Code without jumps is executed as a whole.

Main definitions:

- `Eventually`: a computer gets to something, and stays inside some places of the listing before.
- `Computer.pass?`: what items do that are executed one after the other.
- `Block`: code that stands inside the places.

Main results:

- `Eventually.trans` and `Eventually.meet`: runs one after the other, and runs that end together.
- `Block.pass` and `Block.branch`: code without jumps, and conditional jumps.
-/

namespace LineBasic.Assembly

/-- A computer gets to something, if it does so, without leaving some places of the listing
before. -/
inductive Eventually (layout : Layout) (listing : List Item) (inside : Nat → Prop)
    (P : Nat → Computer → Prop) : Nat → Computer → Prop
  | here {q : Nat} {c : Computer} (h : P q c) : Eventually layout listing inside P q c
  | step {q q' : Nat} {c c' : Computer} (hinside : inside q)
      (hstep : c.step? layout listing q = some (q', c'))
      (hrest : Eventually layout listing inside P q' c') :
      Eventually layout listing inside P q c

variable {layout : Layout} {listing : List Item} {inside : Nat → Prop}
  {P Q : Nat → Computer → Prop} {q q' : Nat} {c c' : Computer}

namespace Eventually

/-- A run goes on where another one ends. -/
theorem trans (h : Eventually layout listing inside P q c)
    (hnext : ∀ q' c', P q' c' → Eventually layout listing inside Q q' c') :
    Eventually layout listing inside Q q c := by
  induction h with
  | here h => exact hnext _ _ h
  | step hinside hstep _ ih => exact .step hinside hstep ih

/-- What is got to can be taken for less. -/
theorem mono (h : Eventually layout listing inside P q c) (hmono : ∀ q' c', P q' c' → Q q' c') :
    Eventually layout listing inside Q q c :=
  h.trans fun q' c' hp => .here (hmono q' c' hp)

/-- Two runs that cannot go on inside the places end together. -/
theorem meet (hp : Eventually layout listing inside P q c)
    (hq : Eventually layout listing inside Q q c)
    (hpend : ∀ r d, P r d → inside r → d.step? layout listing r = none)
    (hqend : ∀ r d, Q r d → inside r → d.step? layout listing r = none) :
    ∃ r d, P r d ∧ Q r d := by
  induction hp with
  | @here q c hp =>
    cases hq with
    | here hq => exact ⟨q, c, hp, hq⟩
    | step hinside hstep _ =>
      rw [hpend q c hp hinside] at hstep
      cases hstep
  | @step q _ c _ hinside hstep _ ih =>
    cases hq with
    | here hq =>
      rw [hqend q c hq hinside] at hstep
      cases hstep
    | step _ hstep' hrest' =>
      rw [hstep] at hstep'
      cases hstep'
      exact ih hrest'

end Eventually

/-! ## Code without jumps -/

namespace Computer

/-- What items do that are executed one after the other. -/
def pass? (layout : Layout) (c : Computer) : List Item → Option Computer
  | [] => some c
  | .instr i :: rest => (c.effect? layout i).bind fun c' => c'.pass? layout rest
  | .noted i _ :: rest => (c.effect? layout i).bind fun c' => c'.pass? layout rest
  | .storage .. :: _ => none
  | _ :: rest => c.pass? layout rest

/-- An instruction with an effect goes on at the next item. -/
theorem exec?_of_effect? {i : Instr} (h : c.effect? layout i = some c') :
    c.exec? layout listing q i = some (q + 1, c') := by
  cases i with
  | jmp l | jump cond l | loop l | call l | ret => cases h
  | _ => simp [exec?, h]

/-- An item that is passed is executed. -/
theorem step?_of_pass? {i : Item} {rest : List Item} (hitem : listing[q]? = some i)
    (h : c.pass? layout (i :: rest) = some c') :
    ∃ m, c.step? layout listing q = some (q + 1, m) ∧ m.pass? layout rest = some c' := by
  cases i with
  | instr i | noted i _ =>
    rcases Option.bind_eq_some_iff.1 h with ⟨m, heffect, hrest⟩
    refine ⟨m, ?_, hrest⟩
    rw [step?, hitem]
    exact exec?_of_effect? heffect
  | storage l s => cases h
  | _ =>
    refine ⟨c, ?_, h⟩
    rw [step?, hitem]

end Computer

/-! ## Blocks -/

/-- Code that stands at a place of a listing, and inside some places. -/
structure Block (listing : List Item) (inside : Nat → Prop) (q : Nat) (items : List Item) :
    Prop where
  placed : Placed listing q items
  inside_of_lt : ∀ j < items.length, inside (q + j)

namespace Block

variable {items xs ys : List Item} {j k : Nat}

/-- The first part of a block. -/
theorem left (h : Block listing inside q (xs ++ ys)) : Block listing inside q xs where
  placed := h.placed.left
  inside_of_lt j hj := h.inside_of_lt j (by rw [List.length_append]; omega)

/-- The second part of a block. -/
theorem right (h : Block listing inside q (xs ++ ys)) :
    Block listing inside (q + xs.length) ys where
  placed := h.placed.right
  inside_of_lt j hj := by
    rw [Nat.add_assoc]
    exact h.inside_of_lt (xs.length + j) (by rw [List.length_append]; omega)

/-- A block behind its first item. -/
theorem tail {i : Item} (h : Block listing inside q (i :: items)) :
    Block listing inside (q + 1) items := by
  rw [← List.singleton_append] at h
  exact h.right

/-- Items of a block that are executed one after the other. -/
theorem pass (h : Block listing inside q items) (j n : Nat) {d : Computer}
    (hpass : c.pass? layout ((items.drop j).take n) = some d)
    (hlength : j + n ≤ items.length)
    (hrest : Eventually layout listing inside P (q + (j + n)) d) :
    Eventually layout listing inside P (q + j) c := by
  induction n generalizing j c with
  | zero =>
    cases hpass
    exact hrest
  | succ n ih =>
    have hlt : j < items.length := by omega
    rw [List.drop_eq_getElem_cons hlt, List.take_succ_cons] at hpass
    have hitem := h.placed.get j _ (List.getElem?_eq_getElem hlt)
    rcases Computer.step?_of_pass? hitem hpass with ⟨m, hstep, hm⟩
    refine .step (h.inside_of_lt j hlt) hstep ?_
    have hsum : j + (n + 1) = j + 1 + n := by omega
    rw [hsum] at hrest hlength
    exact ih (j + 1) hm hlength hrest

/-- The execution of one item of a block. -/
theorem step (h : Block listing inside q items) (hj : j < items.length)
    (hstep : c.step? layout listing (q + j) = some (q', c'))
    (hrest : Eventually layout listing inside P q' c') :
    Eventually layout listing inside P (q + j) c :=
  .step (h.inside_of_lt j hj) hstep hrest

variable {cond : Condition} {s : Spot}

/-- A jump to a dot label of the block. -/
theorem jump (h : Block listing inside q items) (hitem : items[j]? = some (.instr (jumpTo s)))
    (hlabel : items[k]? = some (.label (.inner s)))
    (hrest : Eventually layout listing inside P (q + k) c) :
    Eventually layout listing inside P (q + j) c := by
  have hlt := (List.getElem?_eq_some_iff.1 hitem).1
  refine h.step hlt ?_ hrest
  rw [Computer.step?, h.placed.get j _ hitem]
  simp only [jumpTo, Computer.exec?, h.placed.resolve k j s hlabel hlt]
  rfl

/-- A conditional jump to a dot label of the block that is taken. -/
theorem taken (h : Block listing inside q items)
    (hitem : items[j]? = some (.instr (jumpIf cond s)))
    (hlabel : items[k]? = some (.label (.inner s)))
    (hcond : c.flags.holds? cond = some true)
    (hrest : Eventually layout listing inside P (q + k) c) :
    Eventually layout listing inside P (q + j) c := by
  have hlt := (List.getElem?_eq_some_iff.1 hitem).1
  refine h.step hlt ?_ hrest
  rw [Computer.step?, h.placed.get j _ hitem]
  simp only [jumpIf, Computer.exec?, hcond, h.placed.resolve k j s hlabel hlt]
  rfl

/-- A conditional jump that is not taken. -/
theorem untaken (h : Block listing inside q items)
    (hitem : items[j]? = some (.instr (jumpIf cond s)))
    (hcond : c.flags.holds? cond = some false)
    (hrest : Eventually layout listing inside P (q + (j + 1)) c) :
    Eventually layout listing inside P (q + j) c := by
  have hlt := (List.getElem?_eq_some_iff.1 hitem).1
  refine h.step hlt ?_ hrest
  rw [Computer.step?, h.placed.get j _ hitem]
  simp only [jumpIf, Computer.exec?, hcond]
  rfl

/-- A conditional jump, either way. -/
theorem branch (h : Block listing inside q items) {p : Prop} {_ : Decidable p}
    (hitem : items[j]? = some (.instr (jumpIf cond s)))
    (hlabel : items[k]? = some (.label (.inner s)))
    (hcond : c.flags.holds? cond = some (decide p))
    (htaken : p → Eventually layout listing inside P (q + k) c)
    (huntaken : ¬ p → Eventually layout listing inside P (q + (j + 1)) c) :
    Eventually layout listing inside P (q + j) c := by
  by_cases hp : p
  · exact h.taken hitem hlabel (by rw [hcond, decide_eq_true hp]) (htaken hp)
  · exact h.untaken hitem (by rw [hcond, decide_eq_false hp]) (huntaken hp)

/-- A routine comes back to where it was called from. -/
theorem ret (h : Block listing inside q items) (hitem : items[j]? = some (.instr .ret))
    {back : Nat} {rest : List Computer.Slot} (hstack : c.stack = .place back :: rest)
    (hrest : Eventually layout listing inside P back { c with stack := rest }) :
    Eventually layout listing inside P (q + j) c := by
  have hlt := (List.getElem?_eq_some_iff.1 hitem).1
  refine h.step hlt ?_ hrest
  rw [Computer.step?, h.placed.get j _ hitem]
  simp only [Computer.exec?, hstack]

/-- A call goes on at a label. -/
theorem call (h : Block listing inside q items) {l : Label}
    (hitem : items[j]? = some (.instr (.call l)))
    (hresolve : resolve? listing (q + j) l = some q')
    (hrest : Eventually layout listing inside P q'
      { c with stack := .place (q + (j + 1)) :: c.stack }) :
    Eventually layout listing inside P (q + j) c := by
  have hlt := (List.getElem?_eq_some_iff.1 hitem).1
  refine h.step hlt ?_ hrest
  rw [Computer.step?, h.placed.get j _ hitem]
  simp only [Computer.exec?, hresolve]
  rfl

end Block

/-! ## Conditions -/

namespace Computer.Flags

variable {n : Nat} (a b : BitVec n)

/-- After a comparison, `e` holds of equal operands. -/
theorem holds?_e_sub : (sub a b).holds? .e = some (decide (a = b)) := by
  have hzero : a - b = 0 ↔ a = b := by
    refine ⟨fun h => ?_, fun h => ?_⟩
    · rw [← BitVec.sub_add_cancel a b, h]
      exact BitVec.zero_add b
    · rw [h]
      exact BitVec.sub_self b
  simp only [holds?, sub, ofResult, hzero]

/-- After a comparison, `ne` holds of different operands. -/
theorem holds?_ne_sub : (sub a b).holds? .ne = some (decide (a ≠ b)) := by
  have he := holds?_e_sub a b
  simp only [holds?] at he ⊢
  simp [he]

/-- After a comparison, `b` holds of a smaller operand on the left. -/
theorem holds?_b_sub : (sub a b).holds? .b = some (decide (a.toNat < b.toNat)) := rfl

/-- After a comparison, `ae` holds of a smaller operand on the right, or of equal ones. -/
theorem holds?_ae_sub : (sub a b).holds? .ae = some (decide (b.toNat ≤ a.toNat)) := by
  by_cases hlt : a.toNat < b.toNat
  · simp [holds?, sub, ofResult, hlt]
  · simp [holds?, sub, ofResult, hlt, Nat.le_of_not_lt hlt]

/-- After a comparison, `a` holds of a smaller operand on the right. -/
theorem holds?_a_sub : (sub a b).holds? .a = some (decide (b.toNat < a.toNat)) := by
  have hb := holds?_b_sub a b
  have he := holds?_e_sub a b
  simp only [holds?] at hb he ⊢
  simp only [hb, he, Option.pure_def, Option.bind_eq_bind, Option.bind_some, BitVec.toNat_eq]
  by_cases hlt : b.toNat < a.toNat
  · simp [hlt, Nat.le_of_lt hlt, Nat.ne_of_gt hlt]
  · simp [hlt]
    omega

end Computer.Flags

end LineBasic.Assembly
