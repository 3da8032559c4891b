import Mathlib.Data.Nat.Digits.Defs
import LineBasic.Proofs.Text.Spaces

/-!
# What a typed number looks like

A number is typed as digits behind at most one sign, with any blanks around it, and its value has
to be in range.  This is said here without a way of reading it, and then found to be what is read.

Main definitions:

- `positionalValue`: the value of digits, from the places that they stand at.
- `IsNumeral`: one or more digits behind no sign or one, with their value.
- `HoldsNumber`: a numeral of a number with nothing but blanks around it.

Main results:

- `signedValue?_eq_some_iff`: the numerals are what a value is read from.
- `typedNumber?_eq_some_iff`: the number on a line is the one that the line holds.
-/

namespace LineBasic

/-- The value of digits, each of them ten times that of the same digit one place further behind. -/
def positionalValue (digits : List Char) : Nat :=
  Nat.ofDigits 10 (digits.reverse.map fun c => c.toNat - '0'.toNat)

/-- One decimal digit or more. -/
def IsDigits (cs : List Char) : Prop :=
  cs ≠ [] ∧ ∀ c ∈ cs, c.isDigit = true

/-- Digits behind no sign or one, and their value. -/
inductive IsNumeral : List Char → Int → Prop
  | unsigned {digits : List Char} (h : IsDigits digits) :
    IsNumeral digits (positionalValue digits)
  | plus {digits : List Char} (h : IsDigits digits) :
    IsNumeral ('+' :: digits) (positionalValue digits)
  | minus {digits : List Char} (h : IsDigits digits) :
    IsNumeral ('-' :: digits) (-positionalValue digits)

/-- A numeral of a sixteen-bit number with nothing but blanks around it. -/
def HoldsNumber (cs : List Char) (n : Int16) : Prop :=
  ∃ before numeral behind, cs = before ++ numeral ++ behind ∧
    (∀ c ∈ before, isBlank c = true) ∧ (∀ c ∈ behind, isBlank c = true) ∧
    IsNumeral numeral n.toInt

/-! ## Values -/

/-- A digit behind others moves them by one place. -/
theorem positionalValue_concat (digits : List Char) (c : Char) :
    positionalValue (digits ++ [c]) = 10 * positionalValue digits + (c.toNat - '0'.toNat) := by
  rw [positionalValue, positionalValue, List.reverse_append, List.reverse_singleton,
    List.singleton_append, List.map_cons, Nat.ofDigits_cons, Nat.add_comm]

/-- Digits that are read from the left on have the value of their places. -/
theorem decimalValue_eq (digits : List Char) : decimalValue digits = positionalValue digits := by
  induction digits using List.reverseRecOn with
  | nil => rfl
  | append_singleton digits c ih =>
    rw [positionalValue_concat, ← ih, decimalValue, decimalValue, List.foldl_append]
    rfl

/-- A value is read from digits only. -/
theorem digitsValue?_eq_some_iff {cs : List Char} {n : Nat} :
    digitsValue? cs = some n ↔ IsDigits cs ∧ positionalValue cs = n := by
  rw [digitsValue?, ← decimalValue_eq, IsDigits, ← List.all_eq_true]
  split
  · rename_i hdigits
    rw [Option.some.injEq, and_iff_right hdigits]
  · rename_i hnot
    simp only [hnot, false_and, reduceCtorEq]

/-! ## Numerals -/

/-- Digits behind a sign have their value with that sign. -/
theorem map_digitsValue?_eq_some_iff {cs : List Char} {f : Int → Int} {v : Int} :
    Option.map f (do return ((← digitsValue? cs) : Int)) = some v ↔
      IsDigits cs ∧ f (positionalValue cs) = v := by
  rw [Option.map_eq_some_iff]
  constructor
  · rintro ⟨value, hvalue, rfl⟩
    rcases Option.bind_eq_some_iff.1 hvalue with ⟨n, hn, hcast⟩
    rcases digitsValue?_eq_some_iff.1 hn with ⟨hdigits, rfl⟩
    cases hcast
    exact ⟨hdigits, rfl⟩
  · rintro ⟨hdigits, rfl⟩
    exact ⟨_, Option.bind_eq_some_iff.2 ⟨_, digitsValue?_eq_some_iff.2 ⟨hdigits, rfl⟩, rfl⟩, rfl⟩

/-- A value is read from each numeral, and from nothing else. -/
theorem signedValue?_eq_some_iff {cs : List Char} {v : Int} :
    signedValue? cs = some v ↔ IsNumeral cs v := by
  constructor
  · intro h
    unfold signedValue? at h
    split at h
    · rcases map_digitsValue?_eq_some_iff.1 h with ⟨hdigits, rfl⟩
      exact .minus hdigits
    · rcases map_digitsValue?_eq_some_iff.1 h with ⟨hdigits, rfl⟩
      exact .plus hdigits
    · rcases map_digitsValue?_eq_some_iff.1 h with ⟨hdigits, rfl⟩
      exact .unsigned hdigits
  · intro h
    cases h with
    | minus hdigits => exact map_digitsValue?_eq_some_iff.2 ⟨hdigits, rfl⟩
    | plus hdigits => exact map_digitsValue?_eq_some_iff.2 ⟨hdigits, rfl⟩
    | unsigned hdigits =>
      have hnosign {sign : Char} (hsign : sign.isDigit = false) :
          ∀ digits, cs ≠ sign :: digits := by
        rintro digits rfl
        rw [hdigits.2 sign List.mem_cons_self] at hsign
        cases hsign
      rw [signedValue?]
      · exact map_digitsValue?_eq_some_iff.2 ⟨hdigits, rfl⟩
      · exact hnosign rfl
      · exact hnosign rfl

/-- The characters of a numeral are no blanks. -/
theorem IsNumeral.isBlank_eq_false {cs : List Char} {v : Int} (h : IsNumeral cs v) :
    ∀ c ∈ cs, isBlank c = false := by
  intro c hc
  rcases (mem_of_signedValue? (signedValue?_eq_some_iff.2 h)).2 c hc with hdigit | rfl | rfl
  · exact isBlank_of_isDigit hdigit
  · rfl
  · rfl

/-- The number on a line is the one that the line holds. -/
theorem typedNumber?_eq_some_iff {line : String} {n : Int16} :
    typedNumber? line = some n ↔ HoldsNumber line.toList n := by
  rw [typedNumber?, trimBlanks_eq, Option.bind_eq_some_iff]
  constructor
  · rintro ⟨v, hv, hn⟩
    rcases exists_eq_trimOf isBlank line.toList with ⟨before, behind, hline, hbefore, hbehind⟩
    rw [signedValue?_eq_some_iff, ← toInt_of_number?_eq_some hn] at hv
    exact ⟨before, _, behind, hline, hbefore, hbehind, hv⟩
  · rintro ⟨before, numeral, behind, hline, hbefore, hbehind, hnumeral⟩
    rw [hline, trimOf_append hbefore hbehind hnumeral.isBlank_eq_false]
    exact ⟨n.toInt, signedValue?_eq_some_iff.2 hnumeral, number?_toInt n⟩

end LineBasic
