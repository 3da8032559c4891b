import LineBasic.Proofs.Processor.Eventually
import LineBasic.Proofs.Processor.Memory

/-!
# The routines that read and print

A line is read key by key, and each key either ends it, takes a character back, is stored, or is
dropped because there is no more room.  A text is printed up to the zero behind it.

Main definitions:

- `readStringBody`, `newLineBody` and `printStringBody`: the code of the routines.

Main results:

- `readString_run`: a line that is read ends inside the room for it, and nothing is written outside.
- `newLine_run`: the cursor gets to the next line.
- `printString_run`: a text is printed up to the zero.
-/

namespace LineBasic.Assembly

variable {layout : Layout} {listing : List Item} {inside : Nat → Prop}
  {P : Nat → Computer → Prop} {q : Nat} {c : Computer}

/-! ## Services -/

section Services

variable {items : List Item} {j : Nat}

/-- The service that prints a byte. -/
theorem Block.printByte (h : Block listing inside q items)
    (hitem : items[j]? = some (.instr dosCall)) (hah : highByte c.registers.ax = 2)
    {b : BitVec 8} (hdl : lowByte c.registers.dx = b)
    (hrest : Eventually layout listing inside P (q + (j + 1))
      { c with registers := c.registers.setByte .al b, printed := c.printed ++ [b] }) :
    Eventually layout listing inside P (q + j) c := by
  subst hdl
  have hlt := (List.getElem?_eq_some_iff.1 hitem).1
  refine h.step hlt ?_ hrest
  have hservice : c.effect? layout dosCall = c.service? := rfl
  rw [Computer.step?, h.placed.get j _ hitem]
  refine Computer.exec?_of_effect? ?_
  rw [hservice, Computer.service?, if_neg (by rw [hah]; decide), if_pos hah]
  rfl

/-- The service that waits for a key, when one is going to be pressed. -/
theorem Block.readKey (h : Block listing inside q items)
    (hitem : items[j]? = some (.instr dosCall)) (hah : highByte c.registers.ax = 1)
    {b : BitVec 8} {keys : List (BitVec 8)} (hkeys : c.keys = b :: keys)
    (hrest : Eventually layout listing inside P (q + (j + 1))
      { c with
        registers := c.registers.setByte .al b
        keys := keys
        printed := c.printed ++ [b] }) :
    Eventually layout listing inside P (q + j) c := by
  have hlt := (List.getElem?_eq_some_iff.1 hitem).1
  refine h.step hlt ?_ hrest
  have hservice : c.effect? layout dosCall = c.service? := rfl
  rw [Computer.step?, h.placed.get j _ hitem]
  refine Computer.exec?_of_effect? ?_
  rw [hservice, Computer.service?, if_pos hah, hkeys]

/-- The service that waits for a key, when none is going to be pressed. -/
theorem Block.awaitKey (h : Block listing inside q items)
    (hitem : items[j]? = some (.instr dosCall)) (hah : highByte c.registers.ax = 1)
    (hkeys : c.keys = []) : c.step? layout listing (q + j) = none := by
  have hservice : c.exec? layout listing (q + j) dosCall = c.service?.map (q + j + 1, ·) := rfl
  rw [Computer.step?, h.placed.get j _ hitem]
  simp only
  rw [hservice, Computer.service?, if_pos hah, hkeys]
  rfl

end Services

/-! ## The next line -/

/-- The code of the routine that gets to the next line. -/
def newLineBody : List Item :=
  newLineRoutine.drop 3

/-- The cursor gets to the next line. -/
theorem newLine_run (h : Block listing inside q newLineBody) {back : Nat}
    {rest : List Computer.Slot} (hstack : c.stack = .place back :: rest)
    (hnext : Eventually layout listing inside P back
      { c with printed := c.printed ++ [0x0D, 0x0A], stack := rest }) :
    Eventually layout listing inside P q c := by
  obtain ⟨⟨ax, bx, cx, dx, si, di⟩, flags, memory, stack, keys, printed⟩ := c
  subst hstack
  refine h.pass 0 4 rfl (by decide) ?_
  refine h.printByte (j := 4) rfl (highByte_joinBytes _ _) (lowByte_joinBytes _ _) ?_
  refine h.pass 5 1 rfl (by decide) ?_
  refine h.printByte (j := 6) rfl ?_ (lowByte_joinBytes _ _) ?_
  · exact (highByte_joinBytes _ _).trans (highByte_joinBytes _ _)
  refine h.pass 7 2 rfl (by decide) (h.ret rfl rfl ?_)
  have hprinted : printed ++ [0x0D, 0x0A] = printed ++ [0x0D] ++ [0x0A] := by simp
  rw [hprinted] at hnext
  exact hnext

/-! ## A line -/

/-- The code of the routine that reads a line. -/
def readStringBody : List Item :=
  readStringRoutine.drop 4

section ReadString

/-- A byte stored at an offset leaves the addresses alone that are not covered. -/
theorem covers_put {m m₀ : Memory} {a k : BitVec 16} {n : Nat} {b : BitVec 8}
    (h : ∀ x, ¬ Covers a n x → m x = m₀ x) (hk : k.toNat < n) :
    ∀ x, ¬ Covers a n x → m.put (k + a) b x = m₀ x := by
  intro x hx
  rw [Memory.put_of_ne]
  · exact h x hx
  · rintro rfl
    exact hx (Covers.offset hk a)

variable {ax bx cx dx si di : BitVec 16} {flags : Computer.Flags}
  {keys printed : List (BitVec 8)} {memory : Memory}

/-- From where a key is awaited. -/
theorem nextChar_run (h : Block listing inside q readStringBody)
    (hstuck : ∀ r d, inside r → d.step? layout listing r = none → P r d)
    {room : Nat} (hroom : room < 65535) (hcx : cx.toNat = room) (hbx : bx.toNat ≤ room)
    (hframe : ∀ x, ¬ Covers di (room + 1) x → memory x = c.memory x)
    (hdone : ∀ ax (bx : BitVec 16) flags (memory : Memory) (keys' : List (BitVec 8)) printed,
      keys'.length < keys.length → bx.toNat ≤ room →
      (∀ x, ¬ Covers di (room + 1) x → memory x = c.memory x) →
      Eventually layout listing inside P (q + 24)
        ⟨⟨ax, bx, cx, dx, si, di⟩, flags, memory, c.stack, keys', printed⟩) :
    Eventually layout listing inside P (q + 7)
      ⟨⟨ax, bx, cx, dx, si, di⟩, flags, memory, c.stack, keys, printed⟩ := by
  induction keys generalizing ax bx flags memory printed with
  | nil =>
    refine h.pass 7 2 rfl (by decide) (.here (hstuck _ _ (h.inside_of_lt 9 (by decide)) ?_))
    exact h.awaitKey (j := 9) rfl (highByte_joinBytes _ _) rfl
  | cons b keys ih =>
    have hlater {bx : BitVec 16} (hbx : bx.toNat ≤ room) {memory : Memory}
        (hframe : ∀ x, ¬ Covers di (room + 1) x → memory x = c.memory x) {ax flags printed} :
        Eventually layout listing inside P (q + 7)
          ⟨⟨ax, bx, cx, dx, si, di⟩, flags, memory, c.stack, keys, printed⟩ :=
      ih hbx hframe fun ax bx flags memory keys' printed hlt =>
        hdone ax bx flags memory keys' printed (Nat.lt_succ_of_lt hlt)
    refine h.pass 7 2 rfl (by decide) ?_
    refine h.readKey (j := 9) rfl (highByte_joinBytes _ _) rfl ?_
    refine h.pass 10 1 rfl (by decide) ?_
    refine h.branch (k := 24) rfl rfl (Computer.Flags.holds?_e_sub _ _) (fun _ => ?_) (fun _ => ?_)
    · exact hdone _ _ _ _ _ _ (Nat.lt_succ_self _) hbx hframe
    refine h.pass 12 1 rfl (by decide) ?_
    refine h.branch (k := 19) rfl rfl (Computer.Flags.holds?_e_sub _ _) (fun _ => ?_) (fun _ => ?_)
    · -- a key is taken back, if there is one
      refine h.pass 19 2 rfl (by decide) ?_
      refine h.branch (k := 7) rfl rfl (Computer.Flags.holds?_e_sub _ _) (fun _ => ?_)
        (fun hsome : bx ≠ 0#16 => ?_)
      · exact hlater hbx hframe
      refine h.pass 22 1 rfl (by decide) (h.jump (k := 7) rfl rfl ?_)
      refine hlater ?_ hframe
      change (bx - 1#16).toNat ≤ room
      have hpos : bx.toNat ≠ 0 := fun hzero => hsome (BitVec.eq_of_toNat_eq hzero)
      rw [BitVec.toNat_sub_of_le (by simp [BitVec.le_def]; omega)]
      exact Nat.le_trans (Nat.sub_le _ _) hbx
    refine h.pass 14 1 rfl (by decide) ?_
    refine h.branch (k := 7) rfl rfl (Computer.Flags.holds?_ae_sub _ _) (fun _ => ?_)
      (fun hfits : ¬ cx.toNat ≤ bx.toNat => ?_)
    · exact hlater hbx hframe
    refine h.pass 16 2 rfl (by decide) (h.jump (k := 7) rfl rfl ?_)
    refine hlater ?_ ?_
    · change (bx + 1#16).toNat ≤ room
      rw [BitVec.toNat_add_of_lt (by simp; omega)]
      exact Nat.lt_of_lt_of_le (Nat.lt_of_not_le hfits) (Nat.le_of_eq hcx)
    · exact covers_put hframe (Nat.lt_succ_of_le hbx)

/-- A line that is read ends with a zero inside the room for it, and nothing is written outside.
There may be too few keys to end the line. -/
theorem readString_run (h : Block listing inside q readStringBody) {back : Nat}
    {rest : List Computer.Slot} (hstack : c.stack = .place back :: rest) {room : Nat}
    (hroom : c.registers.cx.toNat = room + 1)
    (hstuck : ∀ r d, inside r → d.step? layout listing r = none → P r d)
    (hnext : ∀ d : Computer, d.registers = c.registers → d.stack = rest →
      d.keys.length < c.keys.length →
      (∃ k : BitVec 16, k.toNat ≤ room ∧ d.memory (k + c.registers.dx) = 0) →
      (∀ x, ¬ Covers c.registers.dx (room + 1) x → d.memory x = c.memory x) →
      Eventually layout listing inside P back d) :
    Eventually layout listing inside P q c := by
  obtain ⟨⟨ax, bx, cx, dx, si, di⟩, flags, memory, stack, keys, printed⟩ := c
  subst hstack
  have hcx : (cx - 1#16).toNat = room := by
    change cx.toNat = room + 1 at hroom
    rw [BitVec.toNat_sub_of_le (by simp [BitVec.le_def]; omega), hroom]
    rfl
  have hlt : room < 65535 := by
    have hbound := cx.isLt
    change cx.toNat = room + 1 at hroom
    omega
  let pushed : Computer := ⟨⟨ax, bx, cx, dx, si, di⟩, flags, memory,
    [.word di, .word cx, .word bx, .word ax, .place back] ++ rest, keys, printed⟩
  refine h.pass 0 7 rfl (by decide) ?_
  refine nextChar_run (c := pushed) h hstuck hlt hcx ?_ (fun _ _ => rfl) ?_
  · change (bx ^^^ bx).toNat ≤ _
    rw [BitVec.xor_self]
    exact Nat.zero_le _
  · intro ax' bx' flags' memory' keys' printed' hkeys hbx hframe
    refine h.pass 24 6 rfl (by decide) (h.ret rfl rfl ?_)
    exact hnext _ rfl rfl hkeys ⟨bx', hbx, Memory.put_self _ _ _⟩
      (covers_put hframe (Nat.lt_succ_of_le hbx))

end ReadString

/-! ## A text -/

/-- The code of the routine that prints a text. -/
def printStringBody : List Item :=
  printStringRoutine.drop 3

section PrintString

variable {a ax dx : BitVec 16} {flags : Computer.Flags} {printed text : List (BitVec 8)}

/-- From where the next byte is loaded. -/
theorem printNext_run (h : Block listing inside q printStringBody)
    (htext : c.memory.HoldsText a text)
    (hdone : ∀ ax dx si flags, Eventually layout listing inside P (q + 12)
      { c with
        registers := { c.registers with ax := ax, dx := dx, si := si }
        flags := flags
        printed := printed ++ text }) :
    Eventually layout listing inside P (q + 4)
      { c with
        registers := { c.registers with ax := ax, dx := dx, si := a }
        flags := flags
        printed := printed } := by
  induction text generalizing a ax dx flags printed with
  | nil =>
    refine h.pass 4 3 rfl (by decide) ?_
    refine h.branch (k := 12) rfl rfl (Computer.Flags.holds?_e_sub _ _)
      (fun _ => ?_)
      (fun hmore : lowByte (joinBytes (highByte ax) (c.memory a)) ≠ 0 => ?_)
    · rw [List.append_nil] at hdone
      exact hdone _ _ _ _
    · rw [lowByte_joinBytes] at hmore
      exact absurd htext hmore
  | cons b rest ih =>
    have hb : lowByte (joinBytes (highByte ax) (c.memory a)) = b := by
      rw [lowByte_joinBytes]
      exact htext.1
    refine h.pass 4 3 rfl (by decide) ?_
    refine h.branch (k := 12) rfl rfl (Computer.Flags.holds?_e_sub _ _)
      (fun hend : lowByte (joinBytes (highByte ax) (c.memory a)) = 0 => ?_) (fun _ => ?_)
    · exact absurd (hb.symm.trans hend) htext.2.1
    refine h.pass 8 2 rfl (by decide) ?_
    refine h.printByte (j := 10) rfl (highByte_joinBytes _ _)
      ((lowByte_joinBytes _ _).trans hb) ?_
    refine h.jump (k := 4) rfl rfl (ih htext.2.2 ?_)
    rwa [List.append_assoc]

/-- A text is printed up to the zero behind it. -/
theorem printString_run (h : Block listing inside q printStringBody) {back : Nat}
    {rest : List Computer.Slot} (hstack : c.stack = .place back :: rest)
    (htext : c.memory.HoldsText c.registers.dx text)
    (hnext : ∀ flags, Eventually layout listing inside P back
      { c with flags := flags, printed := c.printed ++ text, stack := rest }) :
    Eventually layout listing inside P q c := by
  obtain ⟨⟨ax, bx, cx, dx, si, di⟩, flags, memory, stack, keys, printed⟩ := c
  subst hstack
  refine h.pass 0 4 rfl (by decide) ?_
  refine printNext_run h htext fun ax' dx' si' flags' => ?_
  refine h.pass 12 4 rfl (by decide) (h.ret rfl rfl ?_)
  exact hnext flags'

end PrintString

end LineBasic.Assembly
