/-!
# Decimal spellings

Numbers are spelled by digits, with a minus sign in front of those below zero, and different
numbers are spelled differently.

Main results:

- `eq_of_toString_int_eq`: the spelling of a number determines it.
- `isDigit_or_minus_of_mem_toString`: the characters of a spelling.
-/

namespace LineBasic

/-- Natural numbers are spelled by digits. -/
theorem isDigit_of_mem_toString {n : Nat} {c : Char} (h : c ∈ (toString n).toList) :
    c.isDigit = true := by
  rw [Nat.toString_eq_ofList_toDigits, String.toList_ofList] at h
  exact Nat.isDigit_of_mem_toDigits (by decide) (by decide) h

/-- Different natural numbers are spelled differently. -/
theorem eq_of_toString_eq {m n : Nat} (h : toString m = toString n) : m = n := by
  rw [Nat.toString_eq_ofList_toDigits, Nat.toString_eq_ofList_toDigits, String.ofList_inj] at h
  rw [← Nat.ofDigitChars_ten_toDigits (n := m), h, Nat.ofDigitChars_ten_toDigits]

/-- Different numbers are spelled differently. -/
theorem eq_of_toString_int_eq {m n : Int} (h : toString m = toString n) : m = n := by
  have hsign (k l : Nat) : toString k ≠ "-" ++ toString l := by
    intro heq
    have hmem : '-' ∈ (toString k).toList := by simp [heq]
    have hdigit := isDigit_of_mem_toString hmem
    cases hdigit
  cases m with
  | ofNat k =>
    cases n with
    | ofNat l => exact congrArg Int.ofNat (eq_of_toString_eq h)
    | negSucc l => exact absurd h (hsign k (l + 1))
  | negSucc k =>
    cases n with
    | ofNat l => exact absurd h.symm (hsign l (k + 1))
    | negSucc l =>
      have hbehind : toString (k + 1) = toString (l + 1) :=
        String.append_right_inj "-" |>.1 h
      rw [Nat.succ.inj (eq_of_toString_eq hbehind)]

/-- Different line numbers are spelled differently. -/
theorem eq_of_toString_int16_eq {m n : Int16} (h : toString m = toString n) : m = n :=
  Int16.toInt_inj.1 (eq_of_toString_int_eq h)

/-- A line number without a sign is spelled by digits. -/
theorem isDigit_of_mem_toString_int16 {n : Int16} (hn : 0 ≤ n.toInt) {c : Char}
    (h : c ∈ (toString n).toList) : c.isDigit = true := by
  obtain ⟨k, hk⟩ := Int.eq_ofNat_of_zero_le hn
  have hsame : toString n = toString k := by
    change toString n.toInt = toString k
    rw [hk]
    rfl
  exact isDigit_of_mem_toString (hsame ▸ h)

/-- Numbers are spelled by digits and a sign. -/
theorem isDigit_or_minus_of_mem_toString {n : Int} {c : Char} (h : c ∈ (toString n).toList) :
    c.isDigit = true ∨ c = '-' := by
  cases n with
  | ofNat k => exact .inl (isDigit_of_mem_toString h)
  | negSucc k =>
    have hsign : c ∈ ("-" ++ toString (k + 1)).toList := h
    rw [String.toList_append] at hsign
    rcases List.mem_append.1 hsign with hminus | hdigits
    · exact .inr (List.mem_singleton.1 hminus)
    · exact .inl (isDigit_of_mem_toString hdigits)

end LineBasic
