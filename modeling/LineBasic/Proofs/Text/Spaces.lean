import LineBasic.Text.Numeral
import Mathlib.Data.List.DropRight

/-!
# Numbers between spaces

A number may also be read from left to right: spaces, a sign, digits, more spaces, and then the line
has to end.  That finds the numbers that have no blanks but spaces around them.

Main definitions:

- `trimOf` and `trimSpaces`: a text without the characters of a kind, or the spaces, at its ends.
- `spacedNumber?`: the number on a line, if there are only spaces around it.
- `scan?`: the same number from left to right.

Main results:

- `scan?_eq`: reading from left to right finds the numbers between spaces.
- `spacedNumber?_eq_some_iff`: which typed numbers are numbers between spaces.
- `typedNumber?_push`: a blank behind a line makes no difference.
-/

namespace LineBasic

/-! ## Texts freed of characters at both ends -/

/-- The characters between the first and the last one that is not of a kind, both included. -/
def trimOf (p : Char → Bool) (cs : List Char) : List Char :=
  (cs.dropWhile p).rdropWhile p

/-- Whether a character is a space. -/
def isSpace (c : Char) : Bool :=
  c == ' '

/-- The characters between the first and the last one that is not a space, both included. -/
def trimSpaces (cs : List Char) : List Char :=
  trimOf isSpace cs

/-- The number on a line: spaces around it are free, and it must be in range. -/
def spacedNumber? (line : String) : Option Int16 :=
  (signedValue? (trimSpaces line.toList)).bind number?

theorem trimBlanks_eq (cs : List Char) : trimBlanks cs = trimOf isBlank cs := rfl

section trim

variable {p : Char → Bool} {xs ys cs : List Char} {c : Char}

/-- Characters behind a text that are of the kind are dropped with those at its end. -/
theorem rdropWhile_append_of_all (h : ∀ c ∈ ys, p c = true) :
    (xs ++ ys).rdropWhile p = xs.rdropWhile p := by
  have hreverse : ys.reverse.dropWhile p = [] := by
    rw [List.dropWhile_eq_nil_iff]
    exact fun c hc => h c (List.mem_reverse.1 hc)
  rw [List.rdropWhile, List.reverse_append, List.dropWhile_append, hreverse]
  rfl

/-- Characters in front of something that is left are left, too. -/
theorem rdropWhile_append_of_ne_nil (h : ys.rdropWhile p ≠ []) :
    (xs ++ ys).rdropWhile p = xs ++ ys.rdropWhile p := by
  have hsome : ys.reverse.dropWhile p ≠ [] := fun hnil => h (by rw [List.rdropWhile, hnil]; rfl)
  rw [List.rdropWhile, List.reverse_append, List.dropWhile_append, if_neg (by simpa using hsome),
    List.reverse_append, List.reverse_reverse]
  rfl

/-- A character that is not of the kind is left, and so is all in front of it. -/
theorem rdropWhile_cons_of_neg (hc : p c = false) :
    (c :: xs).rdropWhile p = c :: xs.rdropWhile p := by
  by_cases hnil : xs.rdropWhile p = []
  · have hall := List.rdropWhile_eq_nil_iff.1 hnil
    have hone : ([c] ++ xs).rdropWhile p = [c].rdropWhile p := rdropWhile_append_of_all hall
    rw [hnil, ← List.singleton_append, hone, List.rdropWhile_singleton, hc]
    rfl
  · rw [← List.singleton_append, rdropWhile_append_of_ne_nil hnil]
    rfl

/-- Nothing of a text is dropped that has no characters of the kind. -/
theorem rdropWhile_of_none (h : ∀ c ∈ xs, p c = false) : xs.rdropWhile p = xs :=
  List.rdropWhile_eq_self_iff.2 fun hne => by simp [h _ (List.getLast_mem hne)]

/-- A text is what is left of it between characters of the kind. -/
theorem exists_eq_trimOf (p : Char → Bool) (cs : List Char) :
    ∃ before behind, cs = before ++ trimOf p cs ++ behind ∧
      (∀ c ∈ before, p c = true) ∧ ∀ c ∈ behind, p c = true := by
  refine ⟨cs.takeWhile p, (cs.dropWhile p).rtakeWhile p, ?_, ?_, ?_⟩
  · rw [List.append_assoc, trimOf, List.rdropWhile_append_rtakeWhile,
      List.takeWhile_append_dropWhile]
  · exact fun c hc => List.mem_takeWhile_imp hc
  · exact fun c hc => List.mem_rtakeWhile_imp hc

/-- What is left of a text without characters of the kind that stands between such characters. -/
theorem trimOf_append (hbefore : ∀ c ∈ xs, p c = true) (hbehind : ∀ c ∈ ys, p c = true)
    (hcs : ∀ c ∈ cs, p c = false) : trimOf p (xs ++ cs ++ ys) = cs := by
  rw [List.append_assoc, trimOf, List.dropWhile_append, List.dropWhile_eq_nil_iff.2 hbefore]
  cases cs with
  | nil =>
    have hnil : ys.dropWhile p = [] := List.dropWhile_eq_nil_iff.2 hbehind
    simp [hnil]
  | cons c rest =>
    have hkept : (c :: rest ++ ys).dropWhile p = c :: rest ++ ys :=
      List.dropWhile_cons_of_neg (by simp [hcs c List.mem_cons_self])
    rw [if_pos List.isEmpty_nil, hkept, rdropWhile_append_of_all hbehind, rdropWhile_of_none hcs]

/-- A character of the kind behind a text makes no difference. -/
theorem trimOf_push (hc : p c = true) : trimOf p (cs ++ [c]) = trimOf p cs := by
  rw [trimOf, List.dropWhile_append]
  split
  · rename_i hempty
    have hone : [c].dropWhile p = [] := List.dropWhile_cons_of_pos hc
    rw [trimOf, List.isEmpty_iff.1 hempty, hone]
  · rw [rdropWhile_append_of_all (by simpa using hc)]
    rfl

end trim

/-- A blank behind a line makes no difference to the number that is typed there. -/
theorem typedNumber?_push {line : String} {c : Char} (hc : isBlank c = true) :
    typedNumber? (line.push c) = typedNumber? line := by
  rw [typedNumber?, String.toList_push, trimBlanks_eq, trimOf_push hc]
  rfl

/-! ## From left to right -/

/-- The value of digits behind digits of a value. -/
def valueFrom (value : Nat) (digits : List Char) : Nat :=
  digits.foldl (fun n c => 10 * n + (c.toNat - '0'.toNat)) value

/-- What is read behind the digits: the line ends there, or behind spaces. -/
def scanEnd? (negative : Bool) (value : Nat) (cs : List Char) : Option Int16 :=
  if cs.dropWhile isSpace = [] then number? (if negative then -value else value) else none

/-- What is read behind the sign and some of the digits. -/
def scanDigits? (negative : Bool) (value count : Nat) (cs : List Char) : Option Int16 :=
  if count + (cs.takeWhile Char.isDigit).length = 0 then
    none
  else
    scanEnd? negative (valueFrom value (cs.takeWhile Char.isDigit)) (cs.dropWhile Char.isDigit)

/-- What is read behind the spaces in front. -/
def scanSign? : List Char → Option Int16
  | '-' :: cs => scanDigits? true 0 0 cs
  | '+' :: cs => scanDigits? false 0 0 cs
  | cs => scanDigits? false 0 0 cs

/-- The number on a line, read from left to right. -/
def scan? (cs : List Char) : Option Int16 :=
  scanSign? (cs.dropWhile isSpace)

/-- The value of digits is not less than that of the first of them. -/
theorem le_valueFrom (value : Nat) (digits : List Char) : value ≤ valueFrom value digits := by
  induction digits generalizing value with
  | nil => exact Nat.le_refl _
  | cons c rest ih =>
    have hrest := ih (10 * value + (c.toNat - '0'.toNat))
    change value ≤ valueFrom (10 * value + (c.toNat - '0'.toNat)) rest
    omega

/-- A value that needs more than sixteen bits is no number. -/
theorem scanEnd?_eq_none {negative : Bool} {value : Nat} {cs : List Char} (h : 65536 ≤ value) :
    scanEnd? negative value cs = none := by
  rw [scanEnd?, number?]
  split
  · cases negative
    · exact if_neg (by simp; omega)
    · exact if_neg (by simp; omega)
  · rfl

section ScanDigits

variable {negative : Bool} {value count : Nat} {c : Char} {cs : List Char}

/-- A digit goes into the value, and is counted. -/
theorem scanDigits?_cons (hc : c.isDigit = true) :
    scanDigits? negative value count (c :: cs) =
      scanDigits? negative (10 * value + (c.toNat - '0'.toNat)) (count + 1) cs := by
  rw [scanDigits?, scanDigits?, List.takeWhile_cons_of_pos hc, List.dropWhile_cons_of_pos hc,
    List.length_cons, Nat.add_right_comm count 1, Nat.add_assoc]
  rfl

/-- Digits end in front of any other character. -/
theorem scanDigits?_cons_of_not (hc : c.isDigit = false) :
    scanDigits? negative value count (c :: cs) =
      if count = 0 then none else scanEnd? negative value (c :: cs) := by
  have hc' : ¬ c.isDigit = true := by rw [hc]; exact Bool.false_ne_true
  rw [scanDigits?, List.takeWhile_cons_of_neg hc', List.dropWhile_cons_of_neg hc']
  rfl

/-- No digits make a number of a value that is too large. -/
theorem scanDigits?_eq_none (h : 65536 ≤ value) : scanDigits? negative value count cs = none := by
  rw [scanDigits?, scanEnd?_eq_none (Nat.le_trans h (le_valueFrom _ _)), ite_self]

end ScanDigits

/-- A digit is no space. -/
theorem isSpace_of_isDigit {c : Char} (h : c.isDigit = true) : isSpace c = false := by
  rw [isSpace, beq_eq_false_iff_ne]
  rintro rfl
  cases h

/-- The digits that a text begins with are all of it, or it is no text of digits; spaces at its end
are left out. -/
theorem digitsValue?_rdropWhile (cs : List Char) :
    digitsValue? (cs.rdropWhile isSpace) =
      if cs.takeWhile Char.isDigit ≠ [] ∧ (cs.dropWhile Char.isDigit).dropWhile isSpace = [] then
        some (decimalValue (cs.takeWhile Char.isDigit))
      else
        none := by
  have hdigits : ∀ c ∈ cs.takeWhile Char.isDigit, c.isDigit = true :=
    fun c hc => List.mem_takeWhile_imp hc
  have hhead : ∀ c t, cs.dropWhile Char.isDigit = c :: t → c.isDigit = false := by
    intro c t heq
    have hnot := List.head?_dropWhile_not Char.isDigit cs
    simpa [heq] using hnot
  have hsplit : cs.takeWhile Char.isDigit ++ cs.dropWhile Char.isDigit = cs :=
    List.takeWhile_append_dropWhile
  generalize cs.dropWhile Char.isDigit = rest at hsplit hhead ⊢
  generalize cs.takeWhile Char.isDigit = digits at hdigits hsplit ⊢
  subst hsplit
  by_cases hspaces : rest.dropWhile isSpace = []
  · have hall : digits.all Char.isDigit = true := List.all_eq_true.2 hdigits
    rw [rdropWhile_append_of_all (List.dropWhile_eq_nil_iff.1 hspaces),
      rdropWhile_of_none fun c hc => isSpace_of_isDigit (hdigits c hc), digitsValue?]
    simp only [hspaces, hall, and_true]
  · have hsome : rest.rdropWhile isSpace ≠ [] := by
      intro hnil
      exact hspaces (List.dropWhile_eq_nil_iff.2 (List.rdropWhile_eq_nil_iff.1 hnil))
    rw [rdropWhile_append_of_ne_nil hsome, digitsValue?, if_neg, if_neg (by simp [hspaces])]
    rintro ⟨-, hall⟩
    rw [List.all_append, Bool.and_eq_true] at hall
    -- what is left of the rest begins like the rest, and not with a digit
    rcases List.exists_cons_of_ne_nil hsome with ⟨c, t, hkept⟩
    rcases List.rdropWhile_prefix isSpace (l := rest) with ⟨more, hmore⟩
    have hdigit := List.all_eq_true.1 hall.2 c (by simp [hkept])
    rw [hkept] at hmore
    rw [hhead c (t ++ more) hmore.symm] at hdigit
    cases hdigit

/-- Digits read from the left on are those of a text of digits. -/
theorem scanDigits?_zero (negative : Bool) (cs : List Char) :
    scanDigits? negative 0 0 cs =
      ((digitsValue? (cs.rdropWhile isSpace)).map
        fun n => if negative then -(n : Int) else n).bind number? := by
  rw [digitsValue?_rdropWhile, scanDigits?, scanEnd?]
  by_cases hnil : cs.takeWhile Char.isDigit = []
  · simp [hnil]
  · by_cases hspaces : (cs.dropWhile Char.isDigit).dropWhile isSpace = []
    · simp [hnil, hspaces, valueFrom, decimalValue]
    · simp [hnil, hspaces]

/-- Reading from left to right finds the numbers between spaces. -/
theorem scan?_eq (cs : List Char) : scan? cs = (signedValue? (trimSpaces cs)).bind number? := by
  have hhead : ∀ c t, cs.dropWhile isSpace = c :: t → isSpace c = false := by
    intro c t heq
    have hnot := List.head?_dropWhile_not isSpace cs
    simpa [heq] using hnot
  rw [scan?, trimSpaces, trimOf]
  generalize cs.dropWhile isSpace = d at hhead ⊢
  unfold scanSign?
  split
  · rw [rdropWhile_cons_of_neg rfl, scanDigits?_zero]
    rfl
  · rw [rdropWhile_cons_of_neg rfl, scanDigits?_zero]
    rfl
  · rename_i hminus hplus
    rw [scanDigits?_zero]
    cases d with
    | nil => rfl
    | cons c t =>
      rw [rdropWhile_cons_of_neg (hhead c t rfl), signedValue?]
      · rfl
      · exact fun cs heq => hminus t (by cases heq; rfl)
      · exact fun cs heq => hplus t (by cases heq; rfl)

/-! ## Spaces among blanks -/

/-- A space is a blank. -/
theorem isBlank_of_isSpace {c : Char} (h : isSpace c = true) : isBlank c = true := by
  rw [isSpace, beq_iff_eq] at h
  rw [h]
  rfl

/-- The codes of digits. -/
theorem toNat_le_of_isDigit {c : Char} (h : c.isDigit = true) : 48 ≤ c.toNat ∧ c.toNat ≤ 57 := by
  simp only [Char.isDigit, Bool.and_eq_true, decide_eq_true_eq, ge_iff_le, UInt32.le_iff_toNat_le]
    at h
  exact h

/-- A digit is no blank. -/
theorem isBlank_of_isDigit {c : Char} (h : c.isDigit = true) : isBlank c = false := by
  rcases toNat_le_of_isDigit h with ⟨hlow, hhigh⟩
  simp only [isBlank, Bool.or_eq_false_iff, Bool.and_eq_false_iff, decide_eq_false_iff_not,
    beq_eq_false_iff_ne]
  omega

/-- The characters of a numeral. -/
theorem mem_of_signedValue? {cs : List Char} {v : Int} (h : signedValue? cs = some v) :
    cs ≠ [] ∧ ∀ c ∈ cs, c.isDigit = true ∨ c = '-' ∨ c = '+' := by
  have hdigits (ds : List Char) (hd : digitsValue? ds ≠ none) :
      ds ≠ [] ∧ ∀ c ∈ ds, c.isDigit = true ∨ c = '-' ∨ c = '+' := by
    rw [digitsValue?] at hd
    split at hd
    · rename_i hall
      exact ⟨hall.1, fun c hc => .inl (List.all_eq_true.1 hall.2 c hc)⟩
    · exact absurd rfl hd
  unfold signedValue? at h
  split at h
  · rename_i ds
    have hrest := hdigits ds fun hnone => by simp [hnone] at h
    exact ⟨by simp, List.forall_mem_cons.2 ⟨.inr (.inl rfl), hrest.2⟩⟩
  · rename_i ds
    have hrest := hdigits ds fun hnone => by simp [hnone] at h
    exact ⟨by simp, List.forall_mem_cons.2 ⟨.inr (.inr rfl), hrest.2⟩⟩
  · exact hdigits _ fun hnone => by simp [hnone] at h

/-- All of a numeral between spaces has small codes. -/
theorem toNat_lt_of_signedValue? {cs : List Char} {v : Int}
    (h : signedValue? (trimSpaces cs) = some v) : ∀ c ∈ cs, c.toNat < 128 := by
  rcases exists_eq_trimOf isSpace cs with ⟨before, behind, hcs, hbefore, hbehind⟩
  have hspace {c : Char} (hc : isSpace c = true) : c.toNat < 128 := by
    rw [isSpace, beq_iff_eq] at hc
    rw [hc]
    decide
  intro c hc
  rw [hcs, List.append_assoc, List.mem_append, List.mem_append] at hc
  rcases hc with hc | hc | hc
  · exact hspace (hbefore c hc)
  · rcases (mem_of_signedValue? h).2 c hc with hdigit | rfl | rfl
    · exact Nat.lt_of_le_of_lt (toNat_le_of_isDigit hdigit).2 (by decide)
    · decide
    · decide
  · exact hspace (hbehind c hc)

/-- A number between spaces is a typed number that has no blanks but spaces around it. -/
theorem spacedNumber?_eq_some_iff {line : String} {n : Int16} :
    spacedNumber? line = some n ↔
      typedNumber? line = some n ∧ trimSpaces line.toList = trimBlanks line.toList := by
  rw [spacedNumber?, typedNumber?]
  constructor
  · intro h
    rcases Option.bind_eq_some_iff.1 h with ⟨v, hv, -⟩
    rcases exists_eq_trimOf isSpace line.toList with ⟨before, behind, hline, hbefore, hbehind⟩
    have hnumeral : ∀ c ∈ trimSpaces line.toList, isBlank c = false := by
      intro c hc
      rcases (mem_of_signedValue? hv).2 c hc with hdigit | rfl | rfl
      · exact isBlank_of_isDigit hdigit
      · rfl
      · rfl
    have htrim : trimBlanks line.toList = trimSpaces line.toList := by
      rw [trimBlanks_eq]
      conv => lhs; rw [hline]
      exact trimOf_append (fun c hc => isBlank_of_isSpace (hbefore c hc))
        (fun c hc => isBlank_of_isSpace (hbehind c hc)) hnumeral
    rw [htrim]
    exact ⟨h, rfl⟩
  · rintro ⟨h, htrim⟩
    rwa [htrim]

end LineBasic
