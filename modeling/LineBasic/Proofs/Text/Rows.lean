import LineBasic.Proofs.Text.Position
import Mathlib.Data.List.DropRight

/-!
# Rows of a text

A row begins where the text does and behind every line feed.  A position can be found by counting
the characters in front of it, or by looking up its row among the byte offsets where rows begin and
counting from there.  Both ways give the same position for every byte offset, and none for an offset
inside a character.

Main definitions:

- `bisect`: the first place where something no longer holds, found by halving.
- `RowTable`: a text with the byte offsets of its rows.
- `RowTable.position?`: the position at a byte offset, from the table.

Main results:

- `splitOn_flatMap`: lines are found again in their text.
- `charsBefore?_eq_some_iff`: the characters in front of a byte offset.
- `RowTable.position?_ofText`: the table gives the positions of the text.
- `positions_exact`: positions of all offsets, and their order.
-/

namespace LineBasic

/-! ## Lines -/

/-- Lines with a line feed behind each are found again, and behind the last one there is nothing. -/
theorem splitOn_flatMap {lines : List (List Char)} (h : ∀ line ∈ lines, '\n' ∉ line) :
    (lines.flatMap fun line => line ++ ['\n']).splitOn '\n' = lines ++ [[]] := by
  induction lines with
  | nil => exact List.splitOn_nil _
  | cons line rest ih =>
    rcases List.forall_mem_cons.1 h with ⟨hline, hrest⟩
    rw [List.flatMap_cons, List.append_assoc, List.singleton_append,
      List.splitOn_append_cons_self_of_not_mem hline, ih hrest, List.cons_append]

/-! ## Byte offsets -/

/-- The bytes of two parts of a text. -/
theorem utf8ByteSize_ofList_append (cs ds : List Char) :
    (String.ofList (cs ++ ds)).utf8ByteSize =
      (String.ofList cs).utf8ByteSize + (String.ofList ds).utf8ByteSize := by
  rw [String.ofList_append, String.utf8ByteSize_append]

/-- Behind a part of a text, bytes are counted on. -/
theorem charsBefore?_append_add (front behind : List Char) (n : Nat) :
    charsBefore? (front ++ behind) ((String.ofList front).utf8ByteSize + n) =
      (charsBefore? behind n).map (front ++ ·) := by
  induction front with
  | nil => simp
  | cons c rest ih =>
    have hpos := c.utf8Size_pos
    obtain ⟨m, hm⟩ : ∃ m, c.utf8Size + (String.ofList rest).utf8ByteSize + n = m + 1 :=
      ⟨_, (Nat.succ_pred_eq_of_pos (by omega)).symm⟩
    have hleft : m + 1 - c.utf8Size = (String.ofList rest).utf8ByteSize + n := by omega
    rw [utf8ByteSize_ofList_cons, List.cons_append, hm, charsBefore?, if_pos (by omega), hleft, ih,
      Option.map_map]
    rfl

/-- Every byte offset of a text is behind a beginning of it, or inside the character that follows,
and then no characters fill just the bytes in front of it. -/
theorem charsBefore?_cases {cs : List Char} {n : Nat}
    (h : n ≤ (String.ofList cs).utf8ByteSize) :
    ∃ front behind, cs = front ++ behind ∧
      ((String.ofList front).utf8ByteSize = n ∨
        (String.ofList front).utf8ByteSize < n ∧ charsBefore? cs n = none ∧
          ∃ c rest, behind = c :: rest ∧ n < (String.ofList front).utf8ByteSize + c.utf8Size) := by
  fun_induction charsBefore? cs n with
  | case1 cs => exact ⟨[], cs, rfl, .inl rfl⟩
  | case2 n => exact absurd h (by simp)
  | case3 c cs n hle ih =>
    rw [utf8ByteSize_ofList_cons] at h
    obtain ⟨front, behind, rfl, hfront⟩ := ih (by omega)
    refine ⟨c :: front, behind, rfl, ?_⟩
    rw [utf8ByteSize_ofList_cons]
    rcases hfront with heq | ⟨hlt, hnone, d, rest, rfl, hd⟩
    · exact .inl (by omega)
    · exact .inr ⟨by omega, by rw [hnone]; rfl, d, rest, rfl, by omega⟩
  | case4 c cs n hgt =>
    have hsize : (String.ofList ([] : List Char)).utf8ByteSize = 0 := rfl
    refine ⟨[], c :: cs, rfl, .inr ⟨by omega, rfl, c, cs, rfl, by omega⟩⟩

/-- The characters in front of a byte offset are the beginning of the text that fills its bytes. -/
theorem charsBefore?_eq_some_iff {cs front : List Char} {n : Nat} :
    charsBefore? cs n = some front ↔
      ∃ behind, cs = front ++ behind ∧ (String.ofList front).utf8ByteSize = n := by
  constructor
  · intro h
    fun_induction charsBefore? cs n generalizing front with
    | case1 cs =>
      cases h
      exact ⟨cs, rfl, rfl⟩
    | case2 n => cases h
    | case3 c cs n hle ih =>
      obtain ⟨rest, hrest, rfl⟩ := Option.map_eq_some_iff.1 h
      obtain ⟨behind, rfl, hsize⟩ := ih hrest
      exact ⟨behind, rfl, by rw [utf8ByteSize_ofList_cons]; omega⟩
    | case4 c cs n hgt => cases h
  · rintro ⟨behind, rfl, rfl⟩
    exact charsBefore?_append front behind

/-- Characters fill the bytes in front of an offset exactly at the boundaries of characters. -/
theorem isValid_iff_exists_append {text : String} {n : Nat} :
    (String.Pos.Raw.mk n).IsValid text ↔
      ∃ front behind, text.toList = front ++ behind ∧ (String.ofList front).utf8ByteSize = n := by
  rw [String.Pos.Raw.isValid_iff_exists_append]
  constructor
  · rintro ⟨s, t, rfl, hn⟩
    refine ⟨s.toList, t.toList, String.toList_append, ?_⟩
    rw [String.ofList_toList]
    exact (congrArg String.Pos.Raw.byteIdx hn).symm
  · rintro ⟨front, behind, htext, rfl⟩
    refine ⟨String.ofList front, String.ofList behind, ?_, rfl⟩
    apply String.toList_injective
    simpa using htext

/-- The position at a byte offset is the one behind the characters that fill the bytes in front. -/
theorem position?_eq_some_iff {text : String} {offset : Nat} {p : Position} :
    position? text offset = some p ↔
      ∃ front behind, text.toList = front ++ behind ∧
        (String.ofList front).utf8ByteSize = min offset text.utf8ByteSize ∧
        p = Position.start.after front := by
  rw [position?, Option.map_eq_some_iff]
  simp only [charsBefore?_eq_some_iff]
  constructor
  · rintro ⟨front, ⟨behind, htext, hsize⟩, rfl⟩
    exact ⟨front, behind, htext, hsize, rfl⟩
  · rintro ⟨front, behind, htext, hsize, rfl⟩
    exact ⟨front, ⟨behind, htext, hsize⟩, rfl⟩

/-- There is something behind a beginning of a text that has fewer bytes. -/
theorem behind_ne_nil {text : String} {front behind : List Char}
    (h : text.toList = front ++ behind)
    (hlt : (String.ofList front).utf8ByteSize < text.utf8ByteSize) : behind ≠ [] := by
  rintro rfl
  rw [← String.ofList_toList (s := text), h, List.append_nil] at hlt
  exact absurd hlt (Nat.lt_irrefl _)

/-- Of two beginnings of a text, the one with fewer bytes is the beginning of the other. -/
theorem exists_append_of_utf8ByteSize_lt {cs front behind front' behind' : List Char}
    (h : cs = front ++ behind) (h' : cs = front' ++ behind')
    (hlt : (String.ofList front).utf8ByteSize < (String.ofList front').utf8ByteSize) :
    ∃ between, between ≠ [] ∧ front' = front ++ between := by
  rcases List.append_eq_append_iff.1 (h.symm.trans h') with
    ⟨between, rfl, -⟩ | ⟨between, rfl, -⟩
  · refine ⟨between, ?_, rfl⟩
    rintro rfl
    rw [List.append_nil] at hlt
    exact absurd hlt (Nat.lt_irrefl _)
  · rw [utf8ByteSize_ofList_append] at hlt
    exact absurd hlt (by omega)

/-- Offsets behind the end of a text count as its end. -/
theorem position?_min (text : String) (offset : Nat) :
    position? text (min offset text.utf8ByteSize) = position? text offset := by
  rw [position?, position?, Nat.min_assoc, Nat.min_self]

/-- Later offsets have later positions. -/
theorem before_of_position? {text : String} (hsize : text.utf8ByteSize < UInt32.size) {i j : Nat}
    {p q : Position} (hlt : i < j) (hj : j ≤ text.utf8ByteSize)
    (hfits : j < text.utf8ByteSize ∨ ¬ WrapsAtEnd text) (hp : position? text i = some p)
    (hq : position? text j = some q) : p.Before q := by
  obtain ⟨front, behind, htext, hi, rfl⟩ := position?_eq_some_iff.1 hp
  obtain ⟨front', behind', htext', hj', rfl⟩ := position?_eq_some_iff.1 hq
  rw [Nat.min_eq_left (hlt.le.trans hj)] at hi
  rw [Nat.min_eq_left hj] at hj'
  have hfront := exactBehind_of_toList_eq hsize htext
    (.inl (behind_ne_nil htext (by omega)))
  have hfront' := exactBehind_of_toList_eq hsize htext'
    (hfits.imp_left fun hinside => behind_ne_nil htext' (by omega))
  obtain ⟨between, hbetween, rfl⟩ :=
    exists_append_of_utf8ByteSize_lt htext htext' (by rw [hi, hj']; exact hlt)
  exact hfront'.before hfront hbetween

/-! ## Tables of rows -/

/-- The first place from `lo` on, but before `hi`, where `p` does not hold; `hi` if there is none.
What is left to be searched is halved in each step, so that `p` may not hold again behind that
place. -/
def bisect (p : Nat → Bool) (lo hi : Nat) : Nat :=
  if lo < hi then
    let mid := (lo + hi) / 2
    if p mid then bisect p (mid + 1) hi else bisect p lo mid
  else
    lo
termination_by hi - lo
decreasing_by all_goals omega

/-- The place is found if there is only one such place. -/
theorem bisect_eq {p : Nat → Bool} {lo hi k : Nat} (hlo : lo ≤ k) (hhi : k ≤ hi)
    (hbefore : ∀ i < k, p i = true) (hbehind : ∀ i, k ≤ i → i < hi → p i = false) :
    bisect p lo hi = k := by
  fun_induction bisect p lo hi with
  | case1 lo hi hlt mid hmid ih =>
    have hk : mid < k := by
      by_contra hle
      rw [hbehind mid (by omega) (by omega)] at hmid
      cases hmid
    exact ih (by omega) hhi hbehind
  | case2 lo hi hlt mid hmid ih =>
    have hk : k ≤ mid := by
      by_contra hgt
      exact hmid (hbefore mid (by omega))
    exact ih hlo hk fun i hi hmid => hbehind i hi (by omega)
  | case3 lo hi hge => omega

/-- The byte offsets behind the line feeds of characters that begin at an offset. -/
def rowStartsFrom (offset : Nat) : List Char → List Nat
  | [] => []
  | c :: cs =>
    let behind := offset + c.utf8Size
    if c = '\n' then behind :: rowStartsFrom behind cs else rowStartsFrom behind cs

/-- A text with the byte offsets of the first characters of its rows. -/
structure RowTable where
  text : String
  starts : Array Nat

/-- The characters between two byte offsets of a text, if both are boundaries of characters in this
order. -/
def slice? (text : String) (start stop : Nat) : Option (List Char) := do
  let front ← charsBefore? text.toList start
  if start ≤ stop then
    charsBefore? (text.toList.drop front.length) (stop - start)
  else
    none

/-- What stands in front of a slice, and the slice, are the characters in front of its end. -/
theorem map_slice? {text : String} {front behind : List Char} {n : Nat}
    (h : text.toList = front ++ behind) (hle : (String.ofList front).utf8ByteSize ≤ n) :
    (slice? text (String.ofList front).utf8ByteSize n).map (front ++ ·) =
      charsBefore? text.toList n := by
  obtain ⟨m, rfl⟩ := Nat.exists_eq_add_of_le hle
  rw [slice?, h, charsBefore?_append, charsBefore?_append_add]
  simp only [Option.bind_eq_bind, Option.bind_some, List.drop_left, Nat.add_sub_cancel_left, hle,
    if_true]

namespace RowTable

/-- The table of a text. -/
def ofText (text : String) : RowTable where
  text
  starts := (0 :: rowStartsFrom 0 text.toList).toArray

/-- The position at a byte offset.  The row is the last one that begins there or in front, and the
column counts the characters from its beginning on; both are cut to thirty-two bits. -/
def position? (t : RowTable) (offset : Nat) : Option Position := do
  let offset := min offset t.text.utf8ByteSize
  let row := bisect (fun i => t.starts[i]?.any (· ≤ offset)) 0 t.starts.size
  let start ← t.starts[row - 1]?
  let cs ← slice? t.text start offset
  return ⟨row % UInt32.size, (cs.length + 1) % UInt32.size⟩

end RowTable

/-- Rows begin in a part of a text or behind it. -/
theorem rowStartsFrom_append (offset : Nat) (cs ds : List Char) :
    rowStartsFrom offset (cs ++ ds) =
      rowStartsFrom offset cs ++ rowStartsFrom (offset + (String.ofList cs).utf8ByteSize) ds := by
  induction cs generalizing offset with
  | nil => rfl
  | cons c rest ih =>
    rw [List.cons_append, rowStartsFrom, rowStartsFrom, utf8ByteSize_ofList_cons, ih,
      ← Nat.add_assoc]
    split <;> rfl

/-- Each line feed begins a row. -/
theorem length_rowStartsFrom (offset : Nat) (cs : List Char) :
    (rowStartsFrom offset cs).length = cs.count '\n' := by
  induction cs generalizing offset with
  | nil => rfl
  | cons c rest ih =>
    rw [rowStartsFrom, List.count_cons]
    by_cases hc : c = '\n' <;> simp [hc, ih]

/-- Rows begin inside of the characters that they are in or right behind them. -/
theorem mem_rowStartsFrom_bounds {offset s : Nat} {cs : List Char}
    (h : s ∈ rowStartsFrom offset cs) :
    s ≤ offset + (String.ofList cs).utf8ByteSize ∧
      ∃ c rest, cs = c :: rest ∧ offset + c.utf8Size ≤ s := by
  induction cs generalizing offset with
  | nil => cases h
  | cons c rest ih =>
    rw [utf8ByteSize_ofList_cons]
    have hlater (hs : s ∈ rowStartsFrom (offset + c.utf8Size) rest) :
        s ≤ offset + (c.utf8Size + (String.ofList rest).utf8ByteSize) ∧
          offset + c.utf8Size ≤ s := by
      obtain ⟨hle, d, others, -, hd⟩ := ih hs
      exact ⟨by omega, by omega⟩
    have hbounds : s ≤ offset + (c.utf8Size + (String.ofList rest).utf8ByteSize) ∧
        offset + c.utf8Size ≤ s := by
      rw [rowStartsFrom] at h
      split at h
      · rcases List.mem_cons.1 h with rfl | hs
        · exact ⟨by omega, Nat.le_refl _⟩
        · exact hlater hs
      · exact hlater h
    exact ⟨hbounds.1, c, rest, rfl, hbounds.2⟩

/-- The last row that begins in a part of a text begins behind the last line feed there, or where
the text does. -/
theorem getElem?_count_rowStarts (cs : List Char) :
    (0 :: rowStartsFrom 0 cs)[cs.count '\n']? =
      some (String.ofList (cs.rdropWhile (· != '\n'))).utf8ByteSize := by
  induction cs using List.reverseRecOn with
  | nil => rfl
  | append_singleton cs c ih =>
    have hlength : (0 :: rowStartsFrom 0 cs).length = cs.count '\n' + 1 := by
      rw [List.length_cons, length_rowStartsFrom]
    rw [rowStartsFrom_append, ← List.cons_append, List.count_append, Nat.zero_add]
    by_cases hc : c = '\n'
    · subst hc
      have hdrop : (cs ++ ['\n']).rdropWhile (· != '\n') = cs ++ ['\n'] :=
        List.rdropWhile_concat_neg _ _ _ (by simp)
      have hstart : rowStartsFrom (String.ofList cs).utf8ByteSize ['\n'] =
          [(String.ofList (cs ++ ['\n'])).utf8ByteSize] := by
        rw [utf8ByteSize_ofList_append]
        rfl
      rw [hdrop, hstart, List.count_singleton_self, ← hlength, List.getElem?_concat_length]
    · have hdrop : (cs ++ [c]).rdropWhile (· != '\n') = cs.rdropWhile (· != '\n') :=
        List.rdropWhile_concat_pos _ _ _ (by simpa using hc)
      have hstart : rowStartsFrom (String.ofList cs).utf8ByteSize [c] = [] := by
        rw [rowStartsFrom, if_neg hc, rowStartsFrom]
      rw [hdrop, hstart, List.append_nil, List.count_singleton, beq_false_of_ne hc, ← ih]
      rfl

namespace RowTable

/-- Rows that begin in front of an offset are found by bisection: they are those in a part of the
text, if the offset is not behind the first character that follows it. -/
theorem bisect_starts {cs front behind : List Char} {n : Nat} (h : cs = front ++ behind)
    (hfront : (String.ofList front).utf8ByteSize ≤ n)
    (hbehind : ∀ c rest, behind = c :: rest → n < (String.ofList front).utf8ByteSize + c.utf8Size) :
    let starts := (0 :: rowStartsFrom 0 cs).toArray
    bisect (fun i => starts[i]?.any (· ≤ n)) 0 starts.size = front.count '\n' + 1 := by
  intro starts
  have hlength : (0 :: rowStartsFrom 0 front).length = front.count '\n' + 1 := by
    rw [List.length_cons, length_rowStartsFrom]
  have hstarts : starts = ((0 :: rowStartsFrom 0 front) ++
      rowStartsFrom (String.ofList front).utf8ByteSize behind).toArray := by
    rw [List.cons_append, ← Nat.zero_add (String.ofList front).utf8ByteSize,
      ← rowStartsFrom_append, ← h]
  have hsize : starts.size = front.count '\n' + 1 +
      (rowStartsFrom (String.ofList front).utf8ByteSize behind).length := by
    rw [hstarts, List.size_toArray, List.length_append, hlength]
  have hfits : ∀ s ∈ 0 :: rowStartsFrom 0 front, s ≤ n := by
    intro s hs
    rcases List.mem_cons.1 hs with hzero | hlater
    · rw [hzero]
      exact Nat.zero_le n
    · have hle := (mem_rowStartsFrom_bounds hlater).1
      omega
  refine bisect_eq (Nat.zero_le _) (by omega) (fun i hi => ?_) fun i hle hi => ?_
  · have hplace : i < (0 :: rowStartsFrom 0 front).length := by
      rw [hlength]
      exact hi
    rw [hstarts, List.getElem?_toArray, List.getElem?_append_left hplace,
      List.getElem?_eq_getElem hplace]
    simpa using hfits _ (List.getElem_mem hplace)
  · have hplace : i - (front.count '\n' + 1) <
        (rowStartsFrom (String.ofList front).utf8ByteSize behind).length := by omega
    have hmem := List.getElem_mem hplace
    obtain ⟨-, c, rest, hcs, hle⟩ := mem_rowStartsFrom_bounds hmem
    have hlt := hbehind c rest hcs
    rw [hstarts, List.getElem?_toArray, List.getElem?_append_right (by omega), hlength,
      List.getElem?_eq_getElem hplace]
    simp
    omega

/-- The position at an offset is counted from where its row begins. -/
theorem position?_eq_map_slice? {text : String} {offset : Nat} {front behind : List Char}
    (h : text.toList = front ++ behind)
    (hfront : (String.ofList front).utf8ByteSize ≤ min offset text.utf8ByteSize)
    (hbehind : ∀ c rest, behind = c :: rest →
      min offset text.utf8ByteSize < (String.ofList front).utf8ByteSize + c.utf8Size) :
    (ofText text).position? offset =
      (slice? text (String.ofList (front.rdropWhile (· != '\n'))).utf8ByteSize
        (min offset text.utf8ByteSize)).map fun cs =>
          ⟨(1 + front.count '\n') % UInt32.size, (1 + cs.length) % UInt32.size⟩ := by
  have hrow : bisect (fun i => (ofText text).starts[i]?.any (· ≤ min offset text.utf8ByteSize)) 0
      (ofText text).starts.size = front.count '\n' + 1 :=
    bisect_starts h hfront hbehind
  have hbound : front.count '\n' < (0 :: rowStartsFrom 0 front).length := by
    rw [List.length_cons, length_rowStartsFrom]
    exact Nat.lt_succ_self _
  have hstart : (ofText text).starts[front.count '\n']? =
      some (String.ofList (front.rdropWhile (· != '\n'))).utf8ByteSize := by
    rw [ofText, h, List.getElem?_toArray, rowStartsFrom_append, ← List.cons_append,
      List.getElem?_append_left hbound, getElem?_count_rowStarts]
  have htext : (ofText text).text = text := rfl
  rw [RowTable.position?, htext]
  simp only [hrow, Nat.add_sub_cancel, hstart, Option.bind_eq_bind, Option.bind_some,
    Option.map_eq_bind, Nat.add_comm 1]
  rfl

/-- The table gives the positions of the text. -/
theorem position?_ofText (text : String) (offset : Nat) :
    (ofText text).position? offset = LineBasic.position? text offset := by
  have hle : min offset text.utf8ByteSize ≤ (String.ofList text.toList).utf8ByteSize := by
    rw [String.ofList_toList]
    exact Nat.min_le_right _ _
  obtain ⟨front, behind, htext, hcases⟩ := charsBefore?_cases hle
  -- the row of the offset begins behind `upto`, and `line` is what there is of it in `front`
  obtain ⟨upto, line, hupto, hline, hfront⟩ : ∃ upto line, front.rdropWhile (· != '\n') = upto ∧
      front.rtakeWhile (· != '\n') = line ∧ upto ++ line = front :=
    ⟨_, _, rfl, rfl, List.rdropWhile_append_rtakeWhile⟩
  have hbegins : (String.ofList upto).utf8ByteSize ≤ min offset text.utf8ByteSize := by
    have hsize : (String.ofList front).utf8ByteSize =
        (String.ofList upto).utf8ByteSize + (String.ofList line).utf8ByteSize := by
      rw [← hfront, utf8ByteSize_ofList_append]
    omega
  have hparts : text.toList = upto ++ (line ++ behind) := by
    rw [← List.append_assoc, hfront, htext]
  have hslice := map_slice? hparts hbegins
  rw [position?_eq_map_slice? htext (by omega), hupto, LineBasic.position?, ← hslice,
    Option.map_map]
  · rcases hcases with heq | ⟨-, hnone, -⟩
    · have hchars : charsBefore? text.toList (min offset text.utf8ByteSize) = some (upto ++ line) :=
        charsBefore?_eq_some_iff.2 ⟨behind, by rw [hfront, htext], by rw [hfront, heq]⟩
      rw [hchars] at hslice
      obtain ⟨cs, hcs, happend⟩ := Option.map_eq_some_iff.1 hslice
      rw [hcs, List.append_cancel_left happend, Option.map_some, Option.map_some,
        Function.comp_apply, hfront, Position.after_start, hline]
    · rw [hnone, Option.map_eq_none_iff] at hslice
      rw [hslice, Option.map_none, Option.map_none]
  · intro c rest hbehind
    rcases hcases with heq | ⟨-, -, d, others, hd, hlt⟩
    · have hpos := c.utf8Size_pos
      omega
    · cases hbehind.symm.trans hd
      exact hlt

end RowTable

/-! ## All offsets -/

/-- The positions of a text.  Offsets behind the end count as the end. -/
structure ExactPositions (text : String) : Prop where
  /-- At the boundary of a character the row counts the line feeds in front of it, and the column
  the characters behind the last of them, both in thirty-two bits. -/
  counted : ∀ offset front behind, text.toList = front ++ behind →
    (String.ofList front).utf8ByteSize = min offset text.utf8ByteSize →
      position? text offset = some ⟨(1 + front.count '\n') % UInt32.size,
        (1 + (front.rtakeWhile (· != '\n')).length) % UInt32.size⟩
  /-- These are the exact row and column everywhere, but for the end if they are used up there. -/
  exact : ∀ offset front behind, text.toList = front ++ behind →
    (String.ofList front).utf8ByteSize = min offset text.utf8ByteSize →
      offset < text.utf8ByteSize ∨ ¬ WrapsAtEnd text →
        position? text offset =
          some ⟨1 + front.count '\n', 1 + (front.rtakeWhile (· != '\n')).length⟩
  /-- An offset inside a character has no position. -/
  none_iff : ∀ offset, position? text offset = none ↔
    ¬ (String.Pos.Raw.mk (min offset text.utf8ByteSize)).IsValid text
  /-- A look-up in the table of rows gives the same. -/
  table_eq : ∀ offset, (RowTable.ofText text).position? offset = position? text offset
  /-- Later offsets have later positions, -/
  ordered : ∀ i j p q, i < j → j ≤ text.utf8ByteSize →
    j < text.utf8ByteSize ∨ ¬ WrapsAtEnd text → position? text i = some p →
      position? text j = some q → p.Before q
  /-- and different offsets different ones. -/
  injective : ∀ i j p, i ≤ text.utf8ByteSize → j ≤ text.utf8ByteSize → position? text i = some p →
    position? text j = some p → i = j
  /-- The position of the end -/
  end_eq : position? text text.utf8ByteSize = some (endPosition text)
  /-- is the latest, -/
  greatest : ¬ WrapsAtEnd text → ∀ offset p, position? text offset = some p →
    p = endPosition text ∨ p.Before (endPosition text)
  /-- or the earliest, if rows or columns are used up there. -/
  least : WrapsAtEnd text → (endPosition text = ⟨1, 0⟩ ∨ endPosition text = ⟨0, 1⟩) ∧
    ∀ offset p, offset < text.utf8ByteSize → position? text offset = some p →
      (endPosition text).Before p

/-- In every text of less than 2 ^ 32 bytes, row and column are exact for every offset but one: the
end of a text that is one row of 2 ^ 32 - 1 characters, or consists of as many line feeds, gets a
column or a row zero, which is before all others. -/
theorem positions_exact (text : String) (hsize : text.utf8ByteSize < UInt32.size) :
    ExactPositions text := by
  have hend := position?_utf8ByteSize text
  have hcounted : ∀ offset front behind, text.toList = front ++ behind →
      (String.ofList front).utf8ByteSize = min offset text.utf8ByteSize →
        position? text offset = some (Position.start.after front) :=
    fun offset front behind htext hfront =>
      position?_eq_some_iff.2 ⟨front, behind, htext, hfront, rfl⟩
  have hleast : WrapsAtEnd text → ∀ offset p, offset < text.utf8ByteSize →
      position? text offset = some p → (endPosition text).Before p := by
    intro hwraps offset p hlt hp
    obtain ⟨front, behind, htext, hfront, rfl⟩ := position?_eq_some_iff.1 hp
    rw [Nat.min_eq_left hlt.le] at hfront
    exact hwraps.before
      (exactBehind_of_toList_eq hsize htext (.inl (behind_ne_nil htext (by omega))))
  have hne : ∀ i j p, i < j → j ≤ text.utf8ByteSize → position? text i = some p →
      position? text j ≠ some p := by
    intro i j p hlt hj hp hq
    rcases Nat.lt_or_eq_of_le hj with hinside | rfl
    · exact p.not_before_self (before_of_position? hsize hlt hj (.inl hinside) hp hq)
    · by_cases hwraps : WrapsAtEnd text
      · have hbefore := hleast hwraps i p hlt hp
        rw [hend, Option.some.injEq] at hq
        rw [hq] at hbefore
        exact p.not_before_self hbefore
      · exact p.not_before_self (before_of_position? hsize hlt hj (.inr hwraps) hp hq)
  constructor
  · intro offset front behind htext hfront
    rw [hcounted offset front behind htext hfront, Position.after_start]
  · intro offset front behind htext hfront hfits
    have hexact := exactBehind_of_toList_eq hsize htext
      (hfits.imp_left fun hlt => behind_ne_nil htext (by omega))
    rw [hcounted offset front behind htext hfront, hexact.after_start]
  · intro offset
    rw [isValid_iff_exists_append, Option.eq_none_iff_forall_ne_some, ← not_exists, not_iff_not]
    simp only [position?_eq_some_iff]
    constructor
    · rintro ⟨p, front, behind, htext, hfront, -⟩
      exact ⟨front, behind, htext, hfront⟩
    · rintro ⟨front, behind, htext, hfront⟩
      exact ⟨_, front, behind, htext, hfront, rfl⟩
  · exact RowTable.position?_ofText text
  · exact fun i j p q => before_of_position? hsize
  · intro i j p hi hj hp hq
    rcases Nat.lt_trichotomy i j with hlt | heq | hgt
    · exact absurd hq (hne i j p hlt hj hp)
    · exact heq
    · exact absurd hp (hne j i p hgt hi hq)
  · exact hend
  · intro hfits offset p hp
    rcases Nat.lt_or_ge offset text.utf8ByteSize with hlt | hge
    · exact .inr (before_of_position? hsize hlt (Nat.le_refl _) (.inr hfits) hp hend)
    · rw [← position?_min, Nat.min_eq_right hge, hend] at hp
      exact .inl (Option.some.inj hp).symm
  · exact fun hwraps => ⟨hwraps.endPosition_eq, hleast hwraps⟩

/-- A text with an empty row and with characters of one to four bytes, in one of which there are
offsets without a position. -/
theorem positions_of_wide_characters :
    let text := "é\n\n€𝄞\n"
    text.utf8ByteSize < UInt32.size ∧
      position? text 4 = some ⟨3, 1⟩ ∧
      position? text 7 = some ⟨3, 2⟩ ∧
      (⟨3, 1⟩ : Position).Before ⟨3, 2⟩ ∧
      position? text 9 = none ∧
      (RowTable.ofText text).position? 11 = some ⟨3, 3⟩ ∧
      position? text 40 = some ⟨4, 1⟩ := by
  intro text
  have hsize : text.utf8ByteSize < UInt32.size := by decide
  have hfits : ¬ WrapsAtEnd text := fun hwraps => absurd hwraps.1 (by decide)
  have hpositions := positions_exact text hsize
  have hfirst : position? text 4 = some ⟨3, 1⟩ :=
    hpositions.exact 4 ['é', '\n', '\n'] ['€', '𝄞', '\n'] (by decide) (by decide) (.inr hfits)
  have hsecond : position? text 7 = some ⟨3, 2⟩ :=
    hpositions.exact 7 ['é', '\n', '\n', '€'] ['𝄞', '\n'] (by decide) (by decide) (.inr hfits)
  have hthird : position? text 11 = some ⟨3, 3⟩ :=
    hpositions.exact 11 ['é', '\n', '\n', '€', '𝄞'] ['\n'] (by decide) (by decide) (.inr hfits)
  have hlast : position? text 40 = some ⟨4, 1⟩ :=
    hpositions.exact 40 ['é', '\n', '\n', '€', '𝄞', '\n'] [] (by decide) (by decide) (.inr hfits)
  exact ⟨hsize, hfirst, hsecond,
    hpositions.ordered 4 7 _ _ (by decide) (by decide) (.inr hfits) hfirst hsecond,
    (hpositions.none_iff 9).2 (by decide), (hpositions.table_eq 11).trans hthird, hlast⟩

/-- The end of a row of 2 ^ 32 - 1 letters has column zero, and is before the start of the row. -/
theorem end_before_start :
    let text := String.ofList (List.replicate (UInt32.size - 1) 'A')
    text.utf8ByteSize < UInt32.size ∧ position? text 0 = some ⟨1, 1⟩ ∧
      position? text text.utf8ByteSize = some ⟨1, 0⟩ ∧ endPosition text = ⟨1, 0⟩ ∧
      (⟨1, 0⟩ : Position).Before ⟨1, 1⟩ := by
  intro text
  have hbytes : text.utf8ByteSize = (UInt32.size - 1) * 1 := utf8ByteSize_ofList_replicate _ _
  have hstart : position? text 0 = some ⟨1, 1⟩ := position?_zero text
  have hend : endPosition text = ⟨1, 0⟩ := endPosition_replicate (by decide) _
  have hlast : position? text text.utf8ByteSize = some (endPosition text) :=
    position?_utf8ByteSize text
  rw [hend] at hlast
  rw [hbytes] at hlast ⊢
  exact ⟨by decide, hstart, hlast, hend, .inr ⟨rfl, by decide⟩⟩

end LineBasic
