import LineBasic.Text.Position
import Mathlib.Data.List.DropRight

/-!
# The order of positions

Positions are ordered by their rows and, in one row, by their columns.  Where rows and columns fit
into thirty-two bits, every character leads to a later position, so different places of a text have
different positions, in the order of the places.  They fit everywhere in a text of less than 2 ^ 32
bytes, but for the end of two kinds of texts.

Main definitions:

- `Position.Before`: the order of positions.
- `ExactBehind`: the row and the column behind characters fit into thirty-two bits.
- `WrapsAtEnd`: they do not fit at the end of a text.

Main results:

- `Position.after_start`: the row and the column behind characters, by counting.
- `ExactBehind.before`: text leads to a later position.
- `exactBehind_of_toList_eq`: where rows and columns fit.
- `position?_of_append`: the position at the byte offset where a part of a text begins.
-/

namespace LineBasic

/-! ## Counting -/

namespace Position

/-- Behind characters from the start of a text on, the row counts the line feeds among them and the
column the characters behind the last one. -/
theorem after_start (cs : List Char) :
    start.after cs = ⟨(1 + cs.count '\n') % UInt32.size,
      (1 + (cs.rtakeWhile (· != '\n')).length) % UInt32.size⟩ := by
  induction cs using List.reverseRecOn with
  | nil => rfl
  | append_singleton cs c ih =>
    rw [after_append, ih, after_cons, after_nil, advance, List.count_append,
      List.rtakeWhile_concat]
    by_cases hc : c = '\n'
    · simp [hc, Nat.add_assoc]
    · simp [hc, Nat.add_assoc]

/-- One position is in an earlier row than another, or in an earlier column of the same row. -/
def Before (p q : Position) : Prop :=
  p.row < q.row ∨ p.row = q.row ∧ p.col < q.col

/-- No position is before itself. -/
theorem not_before_self (p : Position) : ¬ p.Before p := by
  unfold Before
  omega

end Position

/-! ## Positions of thirty-two bits -/

/-- The row and the column behind the characters from the start of a text on fit into thirty-two
bits. -/
def ExactBehind (cs : List Char) : Prop :=
  1 + cs.count '\n' < UInt32.size ∧ 1 + (cs.rtakeWhile (· != '\n')).length < UInt32.size

variable {front behind cs : List Char}

/-- Where they fit, row and column are what is counted. -/
theorem ExactBehind.after_start (h : ExactBehind cs) :
    Position.start.after cs =
      ⟨1 + cs.count '\n', 1 + (cs.rtakeWhile (· != '\n')).length⟩ := by
  rw [Position.after_start, Nat.mod_eq_of_lt h.1, Nat.mod_eq_of_lt h.2]

/-- More characters are in a later row, or in a later column of the same row. -/
theorem count_lt_or_length_lt (front : List Char) (hne : behind ≠ []) :
    front.count '\n' < (front ++ behind).count '\n' ∨
      front.count '\n' = (front ++ behind).count '\n' ∧
        (front.rtakeWhile (· != '\n')).length <
          ((front ++ behind).rtakeWhile (· != '\n')).length := by
  rw [List.count_append]
  by_cases hfeed : '\n' ∈ behind
  · have hpos := List.count_pos_iff.2 hfeed
    exact .inl (by omega)
  · have hall : ∀ c ∈ behind, (c != '\n') = true := by
      intro c hc
      rw [bne_iff_ne]
      rintro rfl
      exact hfeed hc
    have hrow : ((front ++ behind).rtakeWhile (· != '\n')) =
        front.rtakeWhile (· != '\n') ++ behind := by
      rw [List.rtakeWhile, List.reverse_append, List.takeWhile_append_of_pos (by simpa using hall),
        List.reverse_append, List.reverse_reverse]
      rfl
    have hpos := List.length_pos_iff.2 hne
    rw [List.count_eq_zero_of_not_mem hfeed, hrow, List.length_append]
    exact .inr ⟨rfl, by omega⟩

/-- Text leads to a later position, as long as positions fit. -/
theorem ExactBehind.before (h : ExactBehind (front ++ behind)) (hfront : ExactBehind front)
    (hne : behind ≠ []) :
    (Position.start.after front).Before (Position.start.after (front ++ behind)) := by
  rw [h.after_start, hfront.after_start, Position.Before]
  have hlater := count_lt_or_length_lt front hne
  dsimp only
  omega

/-- In a text of less than 2 ^ 32 characters rows and columns fit, but for the end of a text that is
one row of 2 ^ 32 - 1 characters or consists of as many line feeds. -/
theorem exactBehind_iff (h : cs.length < UInt32.size) :
    ExactBehind cs ↔
      ¬ (cs.length + 1 = UInt32.size ∧ ('\n' ∉ cs ∨ ∀ c ∈ cs, c = '\n')) := by
  have hfeeds : cs.count '\n' ≤ cs.length := List.count_le_length
  have hsuffix : cs.rtakeWhile (· != '\n') <:+ cs := List.rtakeWhile_suffix _ _
  have hrow := hsuffix.length_le
  constructor
  · rintro ⟨hcount, hlength⟩ ⟨hmany, hnone | hall⟩
    · have hself : cs.rtakeWhile (· != '\n') = cs :=
        List.rtakeWhile_eq_self_iff.2 fun c hc => by
          rw [bne_iff_ne]
          rintro rfl
          exact hnone hc
      rw [hself] at hlength
      omega
    · rw [List.count_eq_length.2 fun c hc => (hall c hc).symm] at hcount
      omega
  · intro hother
    rw [ExactBehind]
    by_contra hbad
    have hmany : cs.length + 1 = UInt32.size := by omega
    by_cases hcount : cs.count '\n' = cs.length
    · exact hother ⟨hmany, .inr fun c hc => (List.count_eq_length.1 hcount c hc).symm⟩
    · have hself : cs.rtakeWhile (· != '\n') = cs := hsuffix.eq_of_length (by omega)
      refine hother ⟨hmany, .inl fun hfeed => ?_⟩
      have hne := List.rtakeWhile_eq_self_iff.1 hself _ hfeed
      simp at hne

/-- In front of some character they fit. -/
theorem exactBehind_of_append (h : (front ++ behind).length < UInt32.size) (hne : behind ≠ []) :
    ExactBehind front := by
  have hpos := List.length_pos_iff.2 hne
  rw [List.length_append] at h
  exact (exactBehind_iff (by omega)).2 fun ⟨hmany, _⟩ => by omega

/-! ## The end of a text -/

/-- Columns or rows are used up where a text ends: it is one row of 2 ^ 32 - 1 characters, or
consists of as many line feeds. -/
def WrapsAtEnd (text : String) : Prop :=
  text.length + 1 = UInt32.size ∧ ('\n' ∉ text.toList ∨ ∀ c ∈ text.toList, c = '\n')

variable {text : String}

/-- The position of such an end. -/
theorem WrapsAtEnd.endPosition_eq (h : WrapsAtEnd text) :
    endPosition text = ⟨1, 0⟩ ∨ endPosition text = ⟨0, 1⟩ := by
  rcases h with ⟨hmany, hkind⟩
  rw [← String.length_toList, Nat.add_comm] at hmany
  rw [endPosition, Position.after_start]
  rcases hkind with hnone | hall
  · have hself : text.toList.rtakeWhile (· != '\n') = text.toList :=
      List.rtakeWhile_eq_self_iff.2 fun c hc => by
        rw [bne_iff_ne]
        rintro rfl
        exact hnone hc
    rw [hself, hmany, Nat.mod_self, List.count_eq_zero_of_not_mem hnone]
    exact .inl rfl
  · have hempty : text.toList.rtakeWhile (· != '\n') = [] :=
      List.rtakeWhile_eq_nil_iff.2 fun hne => by simp [hall _ (List.getLast_mem hne)]
    rw [hempty, List.count_eq_length.2 fun c hc => (hall c hc).symm, hmany, Nat.mod_self]
    exact .inr rfl

/-- The end of one character over and over. -/
theorem endPosition_replicate {c : Char} (hc : c ≠ '\n') (n : Nat) :
    endPosition (String.ofList (List.replicate n c)) = ⟨1, (1 + n) % UInt32.size⟩ := by
  have hself : (List.replicate n c).rtakeWhile (· != '\n') = List.replicate n c :=
    List.rtakeWhile_eq_self_iff.2 fun d hd => by
      rw [List.eq_of_mem_replicate hd, bne_iff_ne]
      exact hc
  rw [endPosition, String.toList_ofList, Position.after_start, hself, List.length_replicate,
    List.count_replicate, if_neg (by simpa using hc)]
  rfl

/-- The end is before all positions that fit, if rows or columns are used up there. -/
theorem WrapsAtEnd.before (h : WrapsAtEnd text) (hfront : ExactBehind front) :
    (endPosition text).Before (Position.start.after front) := by
  rw [hfront.after_start, Position.Before]
  rcases h.endPosition_eq with heq | heq
  · rw [heq]
    dsimp only
    omega
  · rw [heq]
    dsimp only
    omega

/-! ## Byte offsets -/

/-- The bytes of a text are those of its first character and of the others. -/
theorem utf8ByteSize_ofList_cons (c : Char) (cs : List Char) :
    (String.ofList (c :: cs)).utf8ByteSize = c.utf8Size + (String.ofList cs).utf8ByteSize := by
  have hsplit : String.ofList (c :: cs) = String.singleton c ++ String.ofList cs := by
    apply String.toList_injective
    simp
  rw [hsplit, String.utf8ByteSize_append, String.utf8ByteSize_singleton]

/-- Every character takes a byte at least. -/
theorem length_le_utf8ByteSize (cs : List Char) :
    cs.length ≤ (String.ofList cs).utf8ByteSize := by
  induction cs with
  | nil => exact Nat.zero_le _
  | cons c rest ih =>
    have hpos := c.utf8Size_pos
    rw [utf8ByteSize_ofList_cons, List.length_cons]
    omega

/-- The bytes of one character over and over. -/
theorem utf8ByteSize_ofList_replicate (n : Nat) (c : Char) :
    (String.ofList (List.replicate n c)).utf8ByteSize = n * c.utf8Size := by
  induction n with
  | zero => rw [Nat.zero_mul, List.replicate_zero, String.ofList_nil, String.utf8ByteSize_empty]
  | succ n ih => rw [List.replicate_succ, utf8ByteSize_ofList_cons, ih, Nat.succ_mul, Nat.add_comm]

/-- A text of less than 2 ^ 32 bytes has less than 2 ^ 32 characters. -/
theorem length_toList_lt (h : text.utf8ByteSize < UInt32.size) :
    text.toList.length < UInt32.size := by
  have hle := length_le_utf8ByteSize text.toList
  rw [String.ofList_toList] at hle
  exact Nat.lt_of_le_of_lt hle h

/-- Rows and columns fit everywhere in such a text, but for its end if they are used up there. -/
theorem exactBehind_of_toList_eq (h : text.utf8ByteSize < UInt32.size)
    (htext : text.toList = front ++ behind) (hfits : behind ≠ [] ∨ ¬ WrapsAtEnd text) :
    ExactBehind front := by
  have hlength := length_toList_lt h
  rcases eq_or_ne behind [] with rfl | hne
  · have hend := hfits.resolve_left fun hne => hne rfl
    rw [List.append_nil] at htext
    rw [← htext, exactBehind_iff hlength, String.length_toList]
    exact hend
  · rw [htext] at hlength
    exact exactBehind_of_append hlength hne

/-- The characters in the first bytes of a text, if these are the bytes of its beginning. -/
theorem charsBefore?_append (front behind : List Char) :
    charsBefore? (front ++ behind) (String.ofList front).utf8ByteSize = some front := by
  induction front with
  | nil => cases behind <;> rfl
  | cons c rest ih =>
    have hpos := c.utf8Size_pos
    obtain ⟨n, hn⟩ : ∃ n, c.utf8Size + (String.ofList rest).utf8ByteSize = n + 1 :=
      ⟨_, (Nat.succ_pred_eq_of_pos (by omega)).symm⟩
    have hleft : n + 1 - c.utf8Size = (String.ofList rest).utf8ByteSize := by omega
    rw [utf8ByteSize_ofList_cons, List.cons_append, hn, charsBefore?, if_pos (by omega), hleft, ih]
    rfl

/-- The position at the byte offset where a part of a text begins. -/
theorem position?_of_append {text : String} {front behind : List Char}
    (h : text.toList = front ++ behind) :
    position? text (String.ofList front).utf8ByteSize = some (Position.start.after front) := by
  have htext : text = String.ofList front ++ String.ofList behind := by
    apply String.toList_injective
    simpa using h
  have hle : (String.ofList front).utf8ByteSize ≤ text.utf8ByteSize := by
    rw [htext, String.utf8ByteSize_append]
    omega
  rw [position?, Nat.min_eq_left hle, h, charsBefore?_append]
  rfl

/-- The position where a text begins. -/
theorem position?_zero (text : String) : position? text 0 = some .start := by
  rw [position?, Nat.zero_min, charsBefore?]
  rfl

/-- The position behind the last byte of a text. -/
theorem position?_utf8ByteSize (text : String) :
    position? text text.utf8ByteSize = some (endPosition text) := by
  have hend := position?_of_append (List.append_nil text.toList).symm
  rwa [String.ofList_toList] at hend

end LineBasic
