/-!
# Positions in a text

A position names a character of a text by its row and column, both counted from one.  A line
feed closes its row; every other character takes one column, however many bytes encode it.  Rows
and columns have thirty-two bits, and where these are used up counting goes on from zero.

Main definitions:

- `Position.advance` and `Position.after`: the position behind one character, and behind many.
- `charsBefore?`: the characters that fill exactly a given number of bytes.
- `position?`: the position at a byte offset of a text.
-/

namespace LineBasic

/-- A place in a text; rows and columns count from one, in thirty-two bits. -/
structure Position where
  row : Nat
  col : Nat
deriving DecidableEq, Repr, Inhabited

namespace Position

/-- The place of the first character of a text. -/
def start : Position := ⟨1, 1⟩

/-- The place behind a character: a line feed opens the next row. -/
def advance (p : Position) (c : Char) : Position :=
  if c = '\n' then ⟨(p.row + 1) % UInt32.size, 1⟩ else ⟨p.row, (p.col + 1) % UInt32.size⟩

/-- The place behind the characters `cs`, the first of which stands at `p`. -/
def after (p : Position) (cs : List Char) : Position :=
  cs.foldl advance p

/-- A position is shown as its row and column with a colon between them. -/
def render (p : Position) : String :=
  s!"{p.row}:{p.col}"

@[simp] theorem after_nil (p : Position) : p.after [] = p := rfl

@[simp] theorem after_cons (p : Position) (c : Char) (cs : List Char) :
    p.after (c :: cs) = (p.advance c).after cs := rfl

/-- Positions compose along a split of the text. -/
theorem after_append (p : Position) (cs ds : List Char) :
    p.after (cs ++ ds) = (p.after cs).after ds :=
  List.foldl_append

end Position

/-! ## Byte offsets -/

/-- The leading characters of a text whose encodings fill exactly its first bytes, if the count
of bytes ends on a character boundary inside the text. -/
def charsBefore? : List Char → Nat → Option (List Char)
  | _, 0 => some []
  | [], _ + 1 => none
  | c :: cs, n + 1 =>
    if c.utf8Size ≤ n + 1 then (charsBefore? cs (n + 1 - c.utf8Size)).map (c :: ·) else none

/-- The position at a byte offset.  Offsets past the end mean the end; an offset inside a
character has no position. -/
def position? (text : String) (offset : Nat) : Option Position :=
  (charsBefore? text.toList (min offset text.utf8ByteSize)).map Position.start.after

/-- The position just past the last character. -/
def endPosition (text : String) : Position :=
  Position.start.after text.toList

end LineBasic
