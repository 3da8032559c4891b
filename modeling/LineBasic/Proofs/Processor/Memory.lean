import LineBasic.Machine.Console
import LineBasic.Proofs.Processor.Bytes
import Mathlib.Data.List.Nodup

/-!
# Ranges of memory

What the instructions that copy and fill leave in memory, range by range.  Addresses are taken
around the end of memory, so no range has to end before it.

Main definitions:

- `Covers`: the addresses from an address on.
- `Terminated`: a zero among them.
- `Storage.bytes`, `Fits` and `Loaded`: what a listing stores, and where it is stored.

Main results:

- `Memory.fill_of_covers` and `Memory.copy_of_covers`: bytes that are written, and
  `Memory.fill_of_not_covers` and `Memory.copy_of_not_covers`: bytes that are not.
- `Terminated.exists_holdsText` and `Memory.HoldsText.terminated`: a text ends inside a range with a
  zero.
- `Fits.of_pages` and `loaded_loadedMemory`: storage in pages of its own, and the memory with it.
-/

namespace LineBasic.Assembly

/-! ## Ranges -/

/-- An address is one of a number of addresses from one on, the last address of all being in front
of the first. -/
def Covers (a : BitVec 16) (n : Nat) (x : BitVec 16) : Prop :=
  (x - a).toNat < n

instance (a : BitVec 16) (n : Nat) (x : BitVec 16) : Decidable (Covers a n x) :=
  inferInstanceAs (Decidable ((x - a).toNat < n))

/-- An address at an offset is covered. -/
theorem Covers.offset {k : BitVec 16} {n : Nat} (h : k.toNat < n) (a : BitVec 16) :
    Covers a n (k + a) := by
  rwa [Covers, BitVec.add_sub_cancel]

/-- A range has its first address. -/
theorem Covers.first {a : BitVec 16} {n : Nat} (hn : 0 < n) : Covers a n a := by
  rwa [Covers, BitVec.sub_self]

/-- The first address of a range, and those behind it. -/
theorem covers_succ_iff {a x : BitVec 16} {n : Nat} (hn : n < 65536) :
    Covers a (n + 1) x ↔ x = a ∨ Covers (a + 1) n x := by
  simp only [Covers, ← BitVec.toNat_inj, BitVec.toNat_sub, BitVec.toNat_add]
  have hx := x.isLt
  have ha := a.isLt
  simp
  omega

/-- The first address is none of those behind it. -/
theorem not_covers_succ {a : BitVec 16} {n : Nat} (hn : n < 65536) : ¬ Covers (a + 1) n a := by
  simp only [Covers, BitVec.toNat_sub, BitVec.toNat_add]
  have ha := a.isLt
  simp
  omega

namespace Memory

variable (m : Memory) {a b src dst x : BitVec 16} {n : Nat}

/-- Bytes outside a range that is filled stay as they are. -/
theorem fill_of_not_covers {b : BitVec 8} (hn : n ≤ 65536) (hx : ¬ Covers dst n x) :
    m.fill dst b n x = m x := by
  induction n generalizing m dst with
  | zero => rfl
  | succ n ih =>
    rw [covers_succ_iff hn, not_or] at hx
    rw [fill, ih _ (Nat.le_of_lt hn) hx.2, put_of_ne _ _ hx.1]

/-- Bytes of a range that is filled. -/
theorem fill_of_covers {b : BitVec 8} (hn : n ≤ 65536) (hx : Covers dst n x) :
    m.fill dst b n x = b := by
  induction n generalizing m dst with
  | zero => exact absurd hx (Nat.not_lt_zero _)
  | succ n ih =>
    rcases (covers_succ_iff hn).1 hx with rfl | hlater
    · rw [fill, fill_of_not_covers _ (Nat.le_of_lt hn) (not_covers_succ hn), put_self]
    · exact ih _ (Nat.le_of_lt hn) hlater

/-- Bytes outside a range that is copied to stay as they are. -/
theorem copy_of_not_covers (hn : n ≤ 65536) (hx : ¬ Covers dst n x) :
    m.copy src dst n x = m x := by
  induction n generalizing m src dst with
  | zero => rfl
  | succ n ih =>
    rw [covers_succ_iff hn, not_or] at hx
    rw [copy, ih _ (Nat.le_of_lt hn) hx.2, put_of_ne _ _ hx.1]

/-- A byte is copied as it was if it is not itself among those that are copied to. -/
theorem copy_of_covers (hn : n ≤ 65536) (hx : Covers dst n x)
    (hsrc : ¬ Covers dst n (src + (x - dst))) :
    m.copy src dst n x = m (src + (x - dst)) := by
  induction n generalizing m src dst with
  | zero => exact absurd hx (Nat.not_lt_zero _)
  | succ n ih =>
    rw [covers_succ_iff hn, not_or] at hsrc
    rcases (covers_succ_iff hn).1 hx with rfl | hlater
    · rw [copy, copy_of_not_covers _ (Nat.le_of_lt hn) (not_covers_succ hn), put_self]
      simp
    · have hsame : src + 1 + (x - (dst + 1)) = src + (x - dst) := by
        apply BitVec.eq_of_toNat_eq
        simp only [BitVec.toNat_sub, BitVec.toNat_add]
        simp
        omega
      rw [copy, ih _ (Nat.le_of_lt hn) hlater (hsame.symm ▸ hsrc.2), hsame, put_of_ne _ _ hsrc.1]

/-- Nothing changes when a range is copied to where it is. -/
theorem copy_self (m : Memory) (a : BitVec 16) (n : Nat) : m.copy a a n = m := by
  induction n generalizing m a with
  | zero => rfl
  | succ n ih =>
    have hput : m.put a (m a) = m := by
      funext x
      by_cases hx : x = a
      · rw [hx, put_self]
      · rw [put_of_ne _ _ hx]
    rw [copy, hput, ih]

/-- Bytes outside a word that is stored stay as they are. -/
theorem store_word_of_not_covers {w : BitVec 16} (hx : ¬ Covers a 2 x) :
    m.store a .word w x = m x := by
  have hone : (2 : Nat) = 0 + 1 + 1 := rfl
  rw [hone, covers_succ_iff (by decide), covers_succ_iff (by decide)] at hx
  simp only [not_or] at hx
  exact (put_of_ne _ _ hx.2.1).trans (put_of_ne _ _ hx.1)

end Memory

/-! ## Texts in a range -/

/-- There is a zero in a range. -/
def Terminated (m : Memory) (a : BitVec 16) (n : Nat) : Prop :=
  ∃ x, Covers a n x ∧ m x = 0

/-- A text ends inside a range with a zero. -/
theorem Terminated.exists_holdsText {m : Memory} {a : BitVec 16} {n : Nat} (hn : n ≤ 65536)
    (h : Terminated m a n) : ∃ text, text.length < n ∧ m.HoldsText a text := by
  induction n generalizing a with
  | zero =>
    rcases h with ⟨x, hx, -⟩
    exact absurd hx (Nat.not_lt_zero _)
  | succ n ih =>
    by_cases hzero : m a = 0
    · exact ⟨[], Nat.succ_pos n, hzero⟩
    · rcases h with ⟨x, hx, hlater⟩
      have hcovers : Covers (a + 1) n x := by
        rcases (covers_succ_iff hn).1 hx with rfl | hcovers
        · exact absurd hlater hzero
        · exact hcovers
      rcases ih (Nat.le_of_lt hn) ⟨x, hcovers, hlater⟩ with ⟨text, hlength, htext⟩
      exact ⟨m a :: text, Nat.succ_lt_succ hlength, rfl, hzero, htext⟩

/-- A text inside a range is there in every memory with the same bytes in the range. -/
theorem Memory.HoldsText.congr {m m' : Memory} {a : BitVec 16} {text : List (BitVec 8)} {n : Nat}
    (hn : n ≤ 65536) (h : m.HoldsText a text) (hlength : text.length < n)
    (hsame : ∀ x, Covers a n x → m' x = m x) : m'.HoldsText a text := by
  induction text generalizing a n with
  | nil =>
    have hfirst : Covers a n a := Covers.first hlength
    exact (hsame a hfirst).trans h
  | cons b rest ih =>
    cases n with
    | zero => exact absurd hlength (Nat.not_lt_zero _)
    | succ n =>
      have hfirst : Covers a (n + 1) a := Covers.first (Nat.succ_pos n)
      refine ⟨(hsame a hfirst).trans h.1, h.2.1, ?_⟩
      refine ih (Nat.le_of_lt hn) h.2.2 (Nat.lt_of_succ_lt_succ hlength) fun x hx => hsame x ?_
      exact (covers_succ_iff hn).2 (.inr hx)

/-- Behind a text there is a zero. -/
theorem Memory.HoldsText.terminated {m : Memory} {a : BitVec 16} {text : List (BitVec 8)} {n : Nat}
    (hn : n ≤ 65536) (h : m.HoldsText a text) (hlength : text.length < n) : Terminated m a n := by
  induction text generalizing a n with
  | nil => exact ⟨a, Covers.first hlength, h⟩
  | cons b rest ih =>
    cases n with
    | zero => exact absurd hlength (Nat.not_lt_zero _)
    | succ n =>
      rcases ih (Nat.le_of_lt hn) h.2.2 (Nat.lt_of_succ_lt_succ hlength) with ⟨x, hx, hzero⟩
      exact ⟨x, (covers_succ_iff hn).2 (.inr hx), hzero⟩

/-! ## Storage -/

/-- What is stored, byte by byte. -/
def Storage.bytes : Storage → List (BitVec 8)
  | zeroWord => [0, 0]
  | zeroBytes count => List.replicate count 0
  | text content => (Machine.encode content).map UInt8.toBitVec ++ [0]

/-- Bytes are one after the other from an address on. -/
def Memory.Holds (m : Memory) (a : BitVec 16) (bytes : List (BitVec 8)) : Prop :=
  ∀ (k : Nat) (b : BitVec 8), bytes[k]? = some b → m (BitVec.ofNat 16 k + a) = b

/-- All that a listing stores has room in memory, and nothing is stored in the place of something
else. -/
structure Fits (layout : Layout) (listing : List Item) : Prop where
  length_le : ∀ l s, .storage l s ∈ listing → s.bytes.length ≤ 65536
  disjoint : ∀ l s l' s', .storage l s ∈ listing → .storage l' s' ∈ listing → l ≠ l' →
    ∀ x, Covers (layout l) s.bytes.length x → ¬ Covers (layout l') s'.bytes.length x

/-- A memory holds all that a listing stores. -/
def Loaded (layout : Layout) (listing : List Item) (m : Memory) : Prop :=
  ∀ l s, .storage l s ∈ listing → m.Holds (layout l) s.bytes

/-- What a listing stores, with the labels. -/
def stored (listing : List Item) : List (Label × Storage) :=
  listing.filterMap fun
    | .storage l s => some (l, s)
    | _ => none

section Stored

variable {layout : Layout} {listing : List Item} {l : Label} {s : Storage}

theorem mem_stored_iff : (l, s) ∈ stored listing ↔ .storage l s ∈ listing := by
  rw [stored, List.mem_filterMap]
  constructor
  · rintro ⟨i, hi, heq⟩
    cases i with
    | storage l' s' =>
      cases heq
      exact hi
    | _ => cases heq
  · exact fun h => ⟨_, h, rfl⟩

theorem stored_append (xs ys : List Item) : stored (xs ++ ys) = stored xs ++ stored ys :=
  List.filterMap_append

/-- Storage fits if it is short and begins at different multiples of 256. -/
theorem Fits.of_pages (hlength : ∀ p ∈ stored listing, p.2.bytes.length ≤ 256)
    (hpage : ∀ p ∈ stored listing, (layout p.1).toNat % 256 = 0)
    (hnodup : ((stored listing).map fun p => layout p.1).Nodup) : Fits layout listing where
  length_le l s hs := Nat.le_trans (hlength _ (mem_stored_iff.2 hs)) (by decide)
  disjoint l s l' s' hs hs' hne x hx hx' := by
    have hmem := mem_stored_iff.2 hs
    have hmem' := mem_stored_iff.2 hs'
    -- an address is in the page of every range that covers it
    have hsame : layout l = layout l' := by
      have hle := hlength _ hmem
      have hle' := hlength _ hmem'
      have hmod := hpage _ hmem
      have hmod' := hpage _ hmem'
      apply BitVec.eq_of_toNat_eq
      simp only [Covers, BitVec.toNat_sub] at hx hx'
      simp only at hle hle' hmod hmod'
      omega
    exact hne (congrArg Prod.fst (List.inj_on_of_nodup_map hnodup hmem hmem' hsame))

/-- The memory that a listing is loaded into. -/
def loadedMemory (layout : Layout) (listing : List Item) : Memory := fun a =>
  ((stored listing).findSome? fun p => p.2.bytes[(a - layout p.1).toNat]?).getD 0

/-- All that a listing stores is in the memory that it is loaded into. -/
theorem loaded_loadedMemory (hfits : Fits layout listing)
    (hnodup : ((stored listing).map Prod.fst).Nodup) :
    Loaded layout listing (loadedMemory layout listing) := by
  intro l s hs k b hb
  have hmem := mem_stored_iff.2 hs
  have hlt := (List.getElem?_eq_some_iff.1 hb).1
  have hk : (BitVec.ofNat 16 k).toNat = k := by
    rw [BitVec.toNat_ofNat]
    exact Nat.mod_eq_of_lt (Nat.lt_of_lt_of_le hlt (hfits.length_le l s hs))
  have hcovers : Covers (layout l) s.bytes.length (BitVec.ofNat 16 k + layout l) :=
    Covers.offset (hk.symm ▸ hlt) _
  have hbyte : s.bytes[(BitVec.ofNat 16 k + layout l - layout l).toNat]? = some b := by
    rw [BitVec.add_sub_cancel, hk, hb]
  rw [loadedMemory]
  cases hfound : (stored listing).findSome? fun p =>
      p.2.bytes[(BitVec.ofNat 16 k + layout l - layout p.1).toNat]? with
  | none =>
    rw [List.findSome?_eq_none_iff.1 hfound _ hmem] at hbyte
    cases hbyte
  | some b' =>
    rcases List.exists_of_findSome?_eq_some hfound with ⟨⟨l', s'⟩, hmem', hbyte'⟩
    have hlt' := (List.getElem?_eq_some_iff.1 hbyte').1
    have hlabel : l = l' := by
      by_contra hne
      exact hfits.disjoint l s l' s' hs (mem_stored_iff.1 hmem') hne _ hcovers hlt'
    obtain ⟨rfl, rfl⟩ := Prod.mk.inj (List.inj_on_of_nodup_map hnodup hmem hmem' hlabel)
    rw [hbyte] at hbyte'
    exact (Option.some.inj hbyte').symm

end Stored

end LineBasic.Assembly
