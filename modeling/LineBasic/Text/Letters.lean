/-!
# Letter case

Names and keywords disregard the case of the letters `a` to `z`; no other letter has a case
here.

Main definitions:

- `upper`: the text with those letters capitalised.

Main results:

- `upper_upper`: capitals stay as they are.
- `isUpper_or_isDigit_toUpper`: letters become capitals, and digits stay digits.
-/

namespace LineBasic

/-- The text with every letter from `a` to `z` capitalised. -/
def upper (text : String) : String :=
  String.ofList (text.toList.map Char.toUpper)

@[simp] theorem toList_upper (text : String) :
    (upper text).toList = text.toList.map Char.toUpper := by
  simp [upper]

/-- Capitalising leaves the number of characters alone. -/
theorem length_upper (text : String) : (upper text).length = text.length := by
  rw [← String.length_toList, ← String.length_toList, toList_upper, List.length_map]

private theorem toUpper_toUpper (c : Char) : c.toUpper.toUpper = c.toUpper := by
  have hother {d : Char} (h : ¬ ('a'.val ≤ d.val ∧ d.val ≤ 'z'.val)) : d.toUpper = d := dif_neg h
  by_cases h : 'a'.val ≤ c.val ∧ c.val ≤ 'z'.val
  · have hupper : c.toUpper = ⟨c.val + ('A'.val - 'a'.val), _⟩ := dif_pos h
    have hval : c.toUpper.val = c.val + ('A'.val - 'a'.val) := by rw [hupper]
    have hout : ¬ ('a'.val ≤ c.toUpper.val ∧ c.toUpper.val ≤ 'z'.val) := by
      rw [hval]
      simp only [UInt32.le_iff_toNat_le, UInt32.toNat_add] at h ⊢
      simp at h ⊢
      omega
    exact hother hout
  · rw [hother h, hother h]

/-- Capitals stay as they are. -/
@[simp] theorem upper_upper (text : String) : upper (upper text) = upper text := by
  apply String.toList_injective
  rw [toList_upper, toList_upper, List.map_map]
  congr 1
  funext c
  exact toUpper_toUpper c

/-! ## Classes of characters -/

/-- Capitals are letters. -/
theorem isAlpha_of_isUpper {c : Char} (h : c.isUpper = true) : c.isAlpha = true :=
  Bool.or_eq_true_iff.2 (.inl h)

/-- Capitals and digits are letters and digits. -/
theorem isAlphanum_of_isUpper_or_isDigit {c : Char} (h : c.isUpper = true ∨ c.isDigit = true) :
    c.isAlphanum = true :=
  Bool.or_eq_true_iff.2 (h.imp_left isAlpha_of_isUpper)

/-- Letters are no digits. -/
theorem isDigit_eq_false_of_isAlpha {c : Char} (h : c.isAlpha = true) : c.isDigit = false := by
  rw [← Bool.not_eq_true]
  intro hdigit
  have hsmall : c.val ≤ '9'.val := of_decide_eq_true (Bool.and_eq_true_iff.1 hdigit).2
  have hlarge : 'A'.val ≤ c.val := by
    rcases Bool.or_eq_true_iff.1 h with hupper | hlower
    · exact (of_decide_eq_true hupper).1
    · have hbig : 'a'.val ≤ c.val := of_decide_eq_true (Bool.and_eq_true_iff.1 hlower).1
      exact Nat.le_trans (by decide) hbig
  exact absurd (Nat.le_trans hlarge hsmall) (by decide)

/-- A capital stays a capital, and a small letter becomes one. -/
theorem isUpper_toUpper {c : Char} (h : c.isAlpha = true) : c.toUpper.isUpper = true := by
  by_cases hlower : 'a'.val ≤ c.val ∧ c.val ≤ 'z'.val
  · have hupper : c.toUpper = ⟨c.val + ('A'.val - 'a'.val), _⟩ := dif_pos hlower
    have hval : c.toUpper.val = c.val + ('A'.val - 'a'.val) := by rw [hupper]
    refine decide_eq_true (show 'A'.val ≤ c.toUpper.val ∧ c.toUpper.val ≤ 'Z'.val from ?_)
    rw [hval]
    simp only [UInt32.le_iff_toNat_le, UInt32.toNat_add] at hlower ⊢
    simp at hlower ⊢
    omega
  · rw [show c.toUpper = c from dif_neg hlower]
    rcases Bool.or_eq_true_iff.1 h with hupper | hsmall
    · exact hupper
    · have hbounds := Bool.and_eq_true_iff.1 hsmall
      exact absurd ⟨of_decide_eq_true hbounds.1, of_decide_eq_true hbounds.2⟩ hlower

/-- Capitals and digits stay as they are. -/
theorem toUpper_eq_self {c : Char} (h : c.isUpper = true ∨ c.isDigit = true) : c.toUpper = c := by
  refine dif_neg fun hlower => ?_
  have hsmall : c.val ≤ 'Z'.val := by
    rcases h with hupper | hdigit
    · exact (of_decide_eq_true hupper).2
    · have hnine : c.val ≤ '9'.val := of_decide_eq_true (Bool.and_eq_true_iff.1 hdigit).2
      exact Nat.le_trans hnine (by decide)
  exact absurd (Nat.le_trans hlower.1 hsmall) (by decide)

/-- A letter becomes a capital, and a digit stays one. -/
theorem isUpper_or_isDigit_toUpper {c : Char} (h : c.isAlphanum = true) :
    c.toUpper.isUpper = true ∨ c.toUpper.isDigit = true := by
  rcases Bool.or_eq_true_iff.1 h with halpha | hdigit
  · exact .inl (isUpper_toUpper halpha)
  · rw [toUpper_eq_self (.inr hdigit)]
    exact .inr hdigit

end LineBasic
