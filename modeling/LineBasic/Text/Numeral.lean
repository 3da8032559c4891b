import LineBasic.Text.Blank

/-!
# Decimal numerals and sixteen-bit numbers

Numbers of the language are sixteen-bit and signed.  A numeral in a program carries no sign,
one typed by a user may carry one and may stand between blanks.  Leading zeros are free in both,
so the range is a matter of the value and not of the number of digits.

Main definitions:

- `number?`: the sixteen-bit number with a given value, if there is one.
- `decimalValue`: the value of a run of digits.
- `literalNumber?` and `typedNumber?`: the two readings of a numeral.
-/

namespace LineBasic

/-- The sixteen-bit number with value `n`, if `n` is in range. -/
def number? (n : Int) : Option Int16 :=
  if -32768 ≤ n ∧ n ≤ 32767 then some (Int16.ofInt n) else none

/-- The value of a run of decimal digits, the first digit weighing most. -/
def decimalValue (digits : List Char) : Nat :=
  digits.foldl (fun n c => 10 * n + (c.toNat - '0'.toNat)) 0

/-- The number that an unsigned run of digits stands for, if it is in range. -/
def literalNumber? (digits : String) : Option Int16 :=
  number? (decimalValue digits.toList)

/-- The value of one or more digits, and of nothing else. -/
def digitsValue? (cs : List Char) : Option Nat :=
  if cs ≠ [] ∧ cs.all Char.isDigit then some (decimalValue cs) else none

/-- The value of one or more digits behind at most one sign. -/
def signedValue? : List Char → Option Int
  | '-' :: cs => (digitsValue? cs).map fun n => -(n : Int)
  | '+' :: cs => (digitsValue? cs).map fun n => (n : Int)
  | cs => (digitsValue? cs).map fun n => (n : Int)

/-- The number on a typed line: blanks around it are free, and it must be in range. -/
def typedNumber? (line : String) : Option Int16 :=
  (signedValue? (trimBlanks line.toList)).bind number?

/-- A number that is found has the value it was looked up by. -/
theorem toInt_of_number?_eq_some {n : Int} {i : Int16} (h : number? n = some i) : i.toInt = n := by
  unfold number? at h
  split at h
  · cases h
    exact Int16.toInt_ofInt_of_le (by simpa using by omega) (by simpa using by omega)
  · cases h

/-- Every sixteen-bit number is found by its value. -/
theorem number?_toInt (i : Int16) : number? i.toInt = some i := by
  have h₁ := i.le_toInt
  have h₂ := i.toInt_lt
  simp only [number?]
  rw [if_pos (by omega)]
  simp

end LineBasic
