import LineBasic.Proofs.Processor.Eventually
import LineBasic.Proofs.Text.Spaces

/-!
# The routine that reads a text as a number

The routine reads a text from left to right, with the sign and the number of digits in the halves of
one register.  It stops at once when the value of the digits does not fit in a word.

Main definitions:

- `byteChar`: the character that a byte stands for.
- `Concludes`: how the routine ends.
- `Memory.storeNumber`: what it stores.

Main result:

- `stringToNumber_run`: the routine finds the number that `scan?` finds, and stores nothing else.
-/

namespace LineBasic.Assembly

/-- The code of the routine behind its label. -/
def stringToNumberBody : List Item :=
  stringToNumberRoutine.drop 5

/-- The character that a byte stands for. -/
def byteChar (b : BitVec 8) : Char :=
  Char.ofNat b.toNat

@[simp] theorem toNat_byteChar (b : BitVec 8) : (byteChar b).toNat = b.toNat := by
  have hvalid : b.toNat.isValidChar := .inl (by omega)
  rw [byteChar, Char.ofNat, dif_pos hvalid]
  rfl

/-- A byte stands for a character if it is its code. -/
theorem byteChar_eq_iff {b : BitVec 8} {d : Char} : byteChar b = d ↔ b.toNat = d.toNat := by
  rw [← toNat_byteChar]
  exact ⟨fun h => by rw [h], fun h => Char.toNat_inj.1 h⟩

@[simp] theorem isSpace_byteChar (b : BitVec 8) : isSpace (byteChar b) = decide (b = 32#8) := by
  have hspace : byteChar b = ' ' ↔ b = 32#8 := byteChar_eq_iff.trans (BitVec.toNat_inj (y := 32#8))
  rw [isSpace, beq_eq_decide, decide_eq_decide]
  exact hspace

/-- The bytes that stand for digits. -/
theorem isDigit_byteChar (b : BitVec 8) :
    (byteChar b).isDigit = decide (48 ≤ b.toNat ∧ b.toNat ≤ 57) := by
  have hval : (byteChar b).val.toNat = b.toNat := toNat_byteChar b
  simp only [Char.isDigit, ge_iff_le, UInt32.le_iff_toNat_le, hval, ← Bool.decide_and]
  rfl

/-- A word is the number that it is read as without a sign. -/
theorem ofInt_toNat (w : BitVec 16) : BitVec.ofInt 16 w.toNat = w := by
  rw [BitVec.ofInt_natCast, BitVec.ofNat_toNat, BitVec.setWidth_eq]

/-- The difference of zero and a word. -/
theorem ofInt_neg_toNat (w : BitVec 16) : BitVec.ofInt 16 (-w.toNat) = 0 - w := by
  rw [BitVec.ofInt_neg, ofInt_toNat]
  exact (BitVec.zero_sub w).symm

/-- The word that the routine makes of a digit in the lower half of a register. -/
def digitWord (ax : BitVec 16) : BitVec 16 :=
  let w := joinBytes (highByte ax) (lowByte ax - 48#8)
  joinBytes (highByte w ^^^ highByte w) (lowByte w)

/-- The word is the value of the digit. -/
theorem toNat_digitWord {ax : BitVec 16} (h : 48 ≤ (lowByte ax).toNat) :
    (digitWord ax).toNat = (lowByte ax).toNat - 48 := by
  have hlow : (lowByte ax - 48#8).toNat = (lowByte ax).toNat - 48 :=
    BitVec.toNat_sub_of_le h
  have hlt := (lowByte ax).isLt
  simp only [digitWord, lowByte_joinBytes, BitVec.xor_self]
  simp only [joinBytes, BitVec.toNat_ofNat, hlow]
  omega

variable {layout : Layout} {listing : List Item} {inside : Nat → Prop}
  {P : Nat → Computer → Prop} {q : Nat} {c : Computer}

/-- A computer gets to something from where the routine stores a number, or from where it gives up
if there is none. -/
def Concludes (layout : Layout) (listing : List Item) (inside : Nat → Prop)
    (P : Nat → Computer → Prop) (q : Nat) (c : Computer) (dst : BitVec 16) : Option Int16 → Prop
  | some n => ∀ rs flags, rs.di = dst → rs.bx = n.toBitVec →
      Eventually layout listing inside P (q + 59) { c with registers := rs, flags := flags }
  | none => ∀ rs flags,
      Eventually layout listing inside P (q + 63) { c with registers := rs, flags := flags }

variable {a ax bx cx dx di : BitVec 16} {flags : Computer.Flags} {text : List (BitVec 8)}
  {negative : Bool} {value count : Nat}

/-- From where the text has to end. -/
theorem checkEnd_run (h : Block listing inside q stringToNumberBody)
    (hax : lowByte ax = c.memory a) (htext : c.memory.HoldsText a text)
    (hbx : bx.toNat = value) (hcx : lowByte cx = if negative then 1 else 0)
    (hend : Concludes layout listing inside P q c di
      (if text = [] then number? (if negative then -value else value) else none)) :
    Eventually layout listing inside P (q + 47)
      { c with registers := ⟨ax, bx, cx, dx, a + 1, di⟩, flags := flags } := by
  refine h.pass 47 2 rfl (by decide) ?_
  refine h.branch (k := 63) rfl rfl (Computer.Flags.holds?_ne_sub _ _)
    (fun hmore : lowByte ax ≠ 0 => ?_) (fun hzero : ¬ lowByte ax ≠ 0 => ?_)
  · cases text with
    | cons b rest => exact hend _ _
    | nil => exact absurd (hax.trans htext) hmore
  cases text with
  | cons b rest => exact absurd (hax.trans htext.1 ▸ htext.2.1) hzero
  | nil =>
    refine h.pass 50 1 rfl (by decide) ?_
    refine h.branch (k := 56) rfl rfl (Computer.Flags.holds?_e_sub _ _)
      (fun hsign : lowByte cx = 0 => ?_) (fun hsign : lowByte cx ≠ 0 => ?_)
    · obtain rfl : negative = false := by
        cases negative with
        | true => exact absurd (hcx.symm.trans hsign) (by decide)
        | false => rfl
      refine h.pass 56 2 rfl (by decide) ?_
      refine h.branch (k := 63) rfl rfl (Computer.Flags.holds?_a_sub _ _)
        (fun hlarge : 32767 < bx.toNat => ?_) (fun hfits : ¬ 32767 < bx.toNat => ?_)
      · rw [if_pos rfl, number?, if_neg (by simp; omega)] at hend
        exact hend _ _
      · rw [if_pos rfl, number?, if_pos (by simp; omega)] at hend
        exact hend _ _ rfl (by rw [← hbx]; exact (ofInt_toNat bx).symm)
    · obtain rfl : negative = true := by
        cases negative with
        | true => rfl
        | false => exact absurd hcx hsign
      refine h.pass 52 1 rfl (by decide) ?_
      refine h.branch (k := 63) rfl rfl (Computer.Flags.holds?_a_sub _ _)
        (fun hlarge : 32768 < bx.toNat => ?_) (fun hfits : ¬ 32768 < bx.toNat => ?_)
      · rw [if_pos rfl, number?, if_neg (by simp; omega)] at hend
        exact hend _ _
      · rw [if_pos rfl, number?, if_pos (by simp; omega)] at hend
        refine h.pass 54 1 rfl (by decide) ?_
        refine h.jump (k := 59) rfl rfl (hend _ _ rfl ?_)
        rw [← hbx]
        exact (ofInt_neg_toNat bx).symm

/-- From where spaces behind the digits are skipped. -/
theorem skipTrailing_run (h : Block listing inside q stringToNumberBody)
    (hax : lowByte ax = c.memory a) (htext : c.memory.HoldsText a text)
    (hbx : bx.toNat = value) (hcx : lowByte cx = if negative then 1 else 0)
    (hend : Concludes layout listing inside P q c di
      (scanEnd? negative value (text.map byteChar))) :
    Eventually layout listing inside P (q + 42)
      { c with registers := ⟨ax, bx, cx, dx, a + 1, di⟩, flags := flags } := by
  induction text generalizing a ax flags with
  | nil =>
    refine h.pass 42 2 rfl (by decide) ?_
    refine h.branch (k := 47) rfl rfl (Computer.Flags.holds?_ne_sub _ _)
      (fun hother : lowByte ax ≠ 32#8 => ?_) (fun hspace : ¬ lowByte ax ≠ 32#8 => ?_)
    · exact checkEnd_run h hax htext hbx hcx hend
    · exact absurd (hax.trans htext ▸ by decide) hspace
  | cons b rest ih =>
    have hb : lowByte ax = b := hax.trans htext.1
    refine h.pass 42 2 rfl (by decide) ?_
    refine h.branch (k := 47) rfl rfl (Computer.Flags.holds?_ne_sub _ _)
      (fun hother : lowByte ax ≠ 32#8 => ?_) (fun hspace : ¬ lowByte ax ≠ 32#8 => ?_)
    · refine checkEnd_run h hax htext hbx hcx ?_
      rw [hb] at hother
      rw [scanEnd?, List.map_cons, List.dropWhile_cons_of_neg (by simp [hother])] at hend
      exact hend
    · rw [hb, not_not] at hspace
      refine h.pass 45 1 rfl (by decide) (h.jump (k := 42) rfl rfl ?_)
      refine ih (lowByte_joinBytes _ _) htext.2.2 ?_
      rwa [scanEnd?, List.map_cons, List.dropWhile_cons_of_pos (by simp [hspace])] at hend

/-- From where the digits end. -/
theorem endDigits_run (h : Block listing inside q stringToNumberBody)
    (hax : lowByte ax = c.memory a) (htext : c.memory.HoldsText a text)
    (hbx : bx.toNat = value) (hcx : lowByte cx = if negative then 1 else 0)
    (hcount : (highByte cx).toNat = count)
    (hend : Concludes layout listing inside P q c di
      (if count = 0 then none else scanEnd? negative value (text.map byteChar))) :
    Eventually layout listing inside P (q + 39)
      { c with registers := ⟨ax, bx, cx, dx, a + 1, di⟩, flags := flags } := by
  refine h.pass 39 2 rfl (by decide) ?_
  refine h.branch (k := 63) rfl rfl (Computer.Flags.holds?_e_sub _ _)
    (fun hnone : highByte cx = 0#8 => ?_) (fun hsome : highByte cx ≠ 0#8 => ?_)
  · rw [if_pos (by rw [← hcount, hnone]; rfl)] at hend
    exact hend _ _
  · have hpos : count ≠ 0 := fun hzero => hsome (BitVec.eq_of_toNat_eq (hcount.trans hzero))
    rw [if_neg hpos] at hend
    exact skipTrailing_run h hax htext hbx hcx hend

/-- From where a digit is expected. -/
theorem digit_run (h : Block listing inside q stringToNumberBody)
    (hax : lowByte ax = c.memory a) (htext : c.memory.HoldsText a text)
    (hbx : bx.toNat = value) (hcx : lowByte cx = if negative then 1 else 0)
    (hcount : (highByte cx).toNat = count) (hlength : count + text.length < 256)
    (hend : Concludes layout listing inside P q c di
      (scanDigits? negative value count (text.map byteChar))) :
    Eventually layout listing inside P (q + 22)
      { c with registers := ⟨ax, bx, cx, dx, a + 1, di⟩, flags := flags } := by
  induction text generalizing a ax bx cx dx flags value count with
  | nil =>
    refine h.pass 22 2 rfl (by decide) ?_
    refine h.branch (k := 39) rfl rfl (Computer.Flags.holds?_b_sub _ _)
      (fun hlow : (lowByte ax).toNat < 48 => ?_) (fun hlow : ¬ (lowByte ax).toNat < 48 => ?_)
    · exact endDigits_run h hax htext hbx hcx hcount hend
    · exact absurd (hax.trans htext ▸ by decide) hlow
  | cons b rest ih =>
    have hb : lowByte ax = b := hax.trans htext.1
    have hother : (byteChar b).isDigit = false → ∀ flags,
        Eventually layout listing inside P (q + 39)
          { c with registers := ⟨ax, bx, cx, dx, a + 1, di⟩, flags := flags } := by
      intro hdigit flags
      rw [List.map_cons, scanDigits?_cons_of_not hdigit] at hend
      exact endDigits_run h hax htext hbx hcx hcount hend
    refine h.pass 22 2 rfl (by decide) ?_
    refine h.branch (k := 39) rfl rfl (Computer.Flags.holds?_b_sub _ _)
      (fun hlow : (lowByte ax).toNat < 48 => ?_) (fun hlow : ¬ (lowByte ax).toNat < 48 => ?_)
    · exact hother (by rw [isDigit_byteChar, ← hb]; simp; omega) _
    refine h.pass 25 1 rfl (by decide) ?_
    refine h.branch (k := 39) rfl rfl (Computer.Flags.holds?_a_sub _ _)
      (fun hhigh : 57 < (lowByte ax).toNat => ?_) (fun hhigh : ¬ 57 < (lowByte ax).toNat => ?_)
    · exact hother (by rw [isDigit_byteChar, ← hb]; simp; omega) _
    have hdigit : (byteChar b).isDigit = true := by
      rw [isDigit_byteChar, ← hb]
      simp
      omega
    have hzero : '0'.toNat = 48 := rfl
    rw [List.map_cons, scanDigits?_cons hdigit, toNat_byteChar, ← hb, hzero] at hend
    -- the value of the digits up to this one may not fit already
    have hfail (hlarge : 65536 ≤ 10 * value + ((lowByte ax).toNat - 48)) :
        Concludes layout listing inside P q c di none := by
      rwa [scanDigits?_eq_none hlarge] at hend
    refine h.pass 27 5 rfl (by decide) ?_
    refine h.branch (k := 63) rfl rfl rfl (fun hlarge : 65536 ≤ bx.toNat * 10 => ?_)
      (fun hproduct : ¬ 65536 ≤ bx.toNat * 10 => ?_)
    · exact hfail (by omega) _ _
    refine h.pass 33 1 rfl (by decide) ?_
    have hdifference := toNat_digitWord (Nat.le_of_not_lt hlow)
    have hproduct' : (BitVec.ofNat 16 (bx.toNat * 10)).toNat = bx.toNat * 10 := by
      rw [BitVec.toNat_ofNat]
      omega
    refine h.branch (k := 63) rfl rfl rfl
      (fun hlarge : 65536 ≤ (BitVec.ofNat 16 (bx.toNat * 10)).toNat +
        (digitWord ax).toNat => ?_)
      (fun hsum : ¬ 65536 ≤ (BitVec.ofNat 16 (bx.toNat * 10)).toNat +
        (digitWord ax).toNat => ?_)
    · exact hfail (by omega) _ _
    refine h.pass 35 3 rfl (by decide) (h.jump (k := 22) rfl rfl ?_)
    have hbx' : (BitVec.ofNat 16 (bx.toNat * 10) + digitWord ax).toNat =
        10 * value + ((lowByte ax).toNat - 48) := by
      rw [BitVec.toNat_add_of_lt (Nat.lt_of_not_le hsum)]
      omega
    have hcx' : lowByte (joinBytes (highByte cx + 1#8) (lowByte cx)) =
        if negative then 1 else 0 := by
      rw [lowByte_joinBytes, hcx]
    have hcount' : (highByte (joinBytes (highByte cx + 1#8) (lowByte cx))).toNat = count + 1 := by
      rw [List.length_cons] at hlength
      rw [highByte_joinBytes, BitVec.toNat_add_of_lt (by rw [hcount]; simp; omega), hcount]
      rfl
    rw [List.length_cons] at hlength
    exact ih (lowByte_joinBytes _ _) htext.2.2 hbx' hcx' hcount' (by omega) hend

/-- A text that begins with no sign is read from its first character on. -/
theorem scanSign?_of_ne (h : ∀ b ∈ text.head?, b ≠ 45#8 ∧ b ≠ 43#8) :
    scanSign? (text.map byteChar) = scanDigits? false 0 0 (text.map byteChar) := by
  cases text with
  | nil => rfl
  | cons b rest =>
    rcases h b rfl with ⟨hminus, hplus⟩
    have hbyte (d : Char) (n : BitVec 8) (hd : d.toNat = n.toNat) (hne : b ≠ n) :
        byteChar b ≠ d := by
      intro heq
      exact hne (BitVec.eq_of_toNat_eq ((byteChar_eq_iff.1 heq).trans hd))
    rw [List.map_cons, scanSign?]
    · exact fun cs heq => hbyte '-' 45#8 rfl hminus (List.cons.inj heq).1
    · exact fun cs heq => hbyte '+' 43#8 rfl hplus (List.cons.inj heq).1

/-- From where a sign is expected, or a digit. -/
theorem sign_run (h : Block listing inside q stringToNumberBody)
    (hax : lowByte ax = c.memory a) (htext : c.memory.HoldsText a text)
    (hlength : text.length < 256)
    (hend : Concludes layout listing inside P q c di (scanSign? (text.map byteChar))) :
    Eventually layout listing inside P (q + 13)
      { c with registers := ⟨ax, 0#16, 0#16, dx, a + 1, di⟩, flags := flags } := by
  have hvalue : (0#16).toNat = 0 := rfl
  have hcount : (highByte 0#16).toNat = 0 := rfl
  have hplain : lowByte 0#16 = if false then 1 else 0 := rfl
  -- the half of the register that tells the sign
  have hnegative : lowByte (joinBytes (highByte 0#16) 1#8) = if true then 1 else 0 := rfl
  have hcount' : (highByte (joinBytes (highByte 0#16) 1#8)).toNat = 0 := rfl
  refine h.pass 13 1 rfl (by decide) ?_
  refine h.branch (k := 18) rfl rfl (Computer.Flags.holds?_ne_sub _ _)
    (fun hminus : lowByte ax ≠ 45#8 => ?_) (fun hminus : ¬ lowByte ax ≠ 45#8 => ?_)
  · refine h.pass 18 2 rfl (by decide) ?_
    refine h.branch (k := 22) rfl rfl (Computer.Flags.holds?_ne_sub _ _)
      (fun hplus : lowByte ax ≠ 43#8 => ?_) (fun hplus : ¬ lowByte ax ≠ 43#8 => ?_)
    · refine digit_run h hax htext hvalue hplain hcount (by omega) ?_
      rwa [scanSign?_of_ne] at hend
      cases text with
      | nil => simp
      | cons b rest => simpa [← htext.1, ← hax] using ⟨hminus, hplus⟩
    · cases text with
      | nil => exact absurd (hax.trans htext ▸ by decide) hplus
      | cons b rest =>
        obtain rfl : b = 43#8 := htext.1.symm.trans (hax.symm.trans (not_not.1 hplus))
        refine h.pass 21 1 rfl (by decide) ?_
        rw [List.length_cons] at hlength
        exact digit_run h (lowByte_joinBytes _ _) htext.2.2 hvalue hplain hcount (by omega) hend
  · cases text with
    | nil => exact absurd (hax.trans htext ▸ by decide) hminus
    | cons b rest =>
      obtain rfl : b = 45#8 := htext.1.symm.trans (hax.symm.trans (not_not.1 hminus))
      refine h.pass 15 2 rfl (by decide) (h.jump (k := 22) rfl rfl ?_)
      rw [List.length_cons] at hlength
      exact digit_run h (lowByte_joinBytes _ _) htext.2.2 hvalue hnegative hcount' (by omega) hend

/-- From where spaces in front are skipped. -/
theorem skipLeading_run (h : Block listing inside q stringToNumberBody)
    (htext : c.memory.HoldsText a text) (hlength : text.length < 256)
    (hbx : bx = 0#16) (hcx : cx = 0#16)
    (hend : Concludes layout listing inside P q c di (scan? (text.map byteChar))) :
    Eventually layout listing inside P (q + 9)
      { c with registers := ⟨ax, bx, cx, dx, a, di⟩, flags := flags } := by
  subst hbx hcx
  induction text generalizing a ax flags with
  | nil =>
    refine h.pass 9 3 rfl (by decide) ?_
    refine h.branch (k := 9) rfl rfl (Computer.Flags.holds?_e_sub _ _)
      (fun hspace : lowByte (joinBytes (highByte ax) (c.memory a)) = 32#8 => ?_)
      (fun hother => sign_run h (lowByte_joinBytes _ _) htext hlength hend)
    rw [lowByte_joinBytes, show c.memory a = 0 from htext] at hspace
    cases hspace
  | cons b rest ih =>
    have hb : c.memory a = b := htext.1
    refine h.pass 9 3 rfl (by decide) ?_
    refine h.branch (k := 9) rfl rfl (Computer.Flags.holds?_e_sub _ _)
      (fun hspace : lowByte (joinBytes (highByte ax) (c.memory a)) = 32#8 => ?_)
      (fun hother : lowByte (joinBytes (highByte ax) (c.memory a)) ≠ 32#8 => ?_)
    · rw [lowByte_joinBytes, hb] at hspace
      rw [List.length_cons] at hlength
      refine ih htext.2.2 (by omega) ?_
      rwa [scan?, List.map_cons, List.dropWhile_cons_of_pos (by simp [hspace])] at hend
    · rw [lowByte_joinBytes, hb] at hother
      refine sign_run h (lowByte_joinBytes _ _) htext hlength ?_
      rwa [scan?, List.map_cons, List.dropWhile_cons_of_neg (by simpa using hother)] at hend

/-- A memory in which a number is stored, if there is one. -/
def Memory.storeNumber (m : Memory) (a : BitVec 16) : Option Int16 → Memory
  | some n => m.store a .word n.toBitVec
  | none => m

/-- From where the registers are restored. -/
theorem done_run (h : Block listing inside q stringToNumberBody) {rs : Computer.Registers}
    {back : Nat} {rest : List Computer.Slot}
    (hstack : c.stack = [.word rs.di, .word rs.si, .word rs.dx, .word rs.cx, .word rs.bx] ++
      .place back :: rest)
    (hnext : Eventually layout listing inside P back
      { c with registers := { rs with ax := c.registers.ax }, stack := rest }) :
    Eventually layout listing inside P (q + 65) c := by
  obtain ⟨⟨ax, bx, cx, dx, si, di⟩, flags, memory, stack, keys, printed⟩ := c
  subst hstack
  exact h.pass 65 6 rfl (by decide) (h.ret rfl rfl hnext)

/-- The routine tells whether a text is a number between spaces, and stores it if it is. -/
theorem stringToNumber_run (h : Block listing inside q stringToNumberBody)
    {back : Nat} {rest : List Computer.Slot} (hstack : c.stack = .place back :: rest)
    (htext : c.memory.HoldsText c.registers.dx text) (hlength : text.length < 256)
    (hnext : ∀ ax flags,
      lowByte ax = (if (scan? (text.map byteChar)).isSome then 1 else 0) →
      Eventually layout listing inside P back
        { c with
          registers := { c.registers with ax := ax }
          flags := flags
          memory := c.memory.storeNumber c.registers.cx (scan? (text.map byteChar))
          stack := rest }) :
    Eventually layout listing inside P q c := by
  let pushed : Computer := { c with
    stack := [.word c.registers.di, .word c.registers.si, .word c.registers.dx,
      .word c.registers.cx, .word c.registers.bx] ++ c.stack }
  have hpushed : pushed.stack = [.word c.registers.di, .word c.registers.si,
      .word c.registers.dx, .word c.registers.cx, .word c.registers.bx] ++ .place back :: rest := by
    rw [← hstack]
  have hend : Concludes layout listing inside P q pushed c.registers.cx
      (scan? (text.map byteChar)) := by
    cases hresult : scan? (text.map byteChar) with
    | none =>
      intro rs flags
      rw [hresult] at hnext
      refine h.pass 63 2 rfl (by decide) (done_run h hpushed ?_)
      exact hnext _ _ (lowByte_joinBytes _ _)
    | some n =>
      rintro ⟨ax, bx, cx, dx, si, di⟩ flags hdi hbx
      cases hdi
      cases hbx
      rw [hresult] at hnext
      refine h.pass 59 3 rfl (by decide) (h.jump (k := 65) rfl rfl (done_run h hpushed ?_))
      exact hnext _ _ (lowByte_joinBytes _ _)
  refine h.pass 0 9 rfl (by decide) ?_
  exact skipLeading_run h htext hlength BitVec.xor_self BitVec.xor_self hend

end LineBasic.Assembly
