import LineBasic.Token.Basic

/-!
# Pieces of a program text

A program text is cut into pieces: tokens, runs of blanks, comments, and stretches that are no
token.  Each piece carries the characters it was cut from, so the pieces of a text written one
after the other are the text.  A token is the longest one that the text offers at its place.

Main definitions:

- `Piece.first`: the first piece of a text that is not empty, and the text behind it.
- `pieces`: all pieces of a text.

Main results:

- `Piece.first_text_append`: cutting off a piece loses nothing.
- `flatMap_text_pieces`: the pieces of a text concatenate to it.
-/

namespace LineBasic

/-- Why a stretch of text is no token. -/
inductive LexicalFault where
  /-- A character that begins no token. -/
  | invalidCharacter (c : Char)
  /-- A quote that is not closed before its line ends. -/
  | unterminatedText
  /-- A carriage return or a line feed that is not half of a line break. -/
  | malformedLineBreak
  /-- An exclamation mark without the equals sign that makes it a relation. -/
  | loneExclamation
deriving DecidableEq, Repr

/-- What a piece of text is. -/
inductive PieceKind where
  | token (t : Token)
  | blank
  | comment
  | fault (f : LexicalFault)
deriving DecidableEq, Repr

/-- A stretch of text and what it is. -/
structure Piece where
  kind : PieceKind
  text : List Char
deriving DecidableEq, Repr

/-! ## Character classes -/

/-- Spaces and tabs separate tokens. -/
def isGap (c : Char) : Bool :=
  c == ' ' || c == '\t'

/-- A quoted text runs up to a quote and never across a line. -/
def isQuotable (c : Char) : Bool :=
  c != '"' && c != '\r' && c != '\n'

/-- A comment runs up to a carriage return. -/
def isRemark (c : Char) : Bool :=
  c != '\r'

/-! ## Tokens of one or two characters -/

/-- The tokens of two characters. -/
def pairToken? : Char → Char → Option Token
  | '=', '=' => some .equal
  | '!', '=' => some .notEqual
  | '<', '>' => some .notEqual
  | '>', '=' => some .greaterEqual
  | '<', '=' => some .lessEqual
  | '\r', '\n' => some .lineBreak
  | _, _ => none

/-- The tokens of one character. -/
def singleToken? : Char → Option Token
  | '+' => some .plus
  | '-' => some .minus
  | '*' => some .times
  | '/' => some .divide
  | '=' => some .becomes
  | '>' => some .greater
  | '<' => some .less
  | '(' => some .leftParen
  | ')' => some .rightParen
  | ',' => some .comma
  | _ => none

/-- Why a character that begins no token here is not one. -/
def LexicalFault.ofChar : Char → LexicalFault
  | '\r' => .malformedLineBreak
  | '\n' => .malformedLineBreak
  | '!' => .loneExclamation
  | c => .invalidCharacter c

/-! ## Cutting -/

namespace Piece

/-- What a single character is that forms no longer token with the next one. -/
def singleKind (c : Char) : PieceKind :=
  match singleToken? c with
  | some t => .token t
  | none => .fault (.ofChar c)

/-- The piece that begins with an operator, a mark or a stray character. -/
def symbol (c : Char) : List Char → Piece × List Char
  | [] => (⟨singleKind c, [c]⟩, [])
  | d :: rest =>
    match pairToken? c d with
    | some t => (⟨.token t, [c, d]⟩, rest)
    | none => (⟨singleKind c, [c]⟩, d :: rest)

/-- The piece that begins with a quote: the whole quoted text, or all of it that stands on the
line when the closing quote is missing. -/
def quoted (rest : List Char) : Piece × List Char :=
  let content := rest.takeWhile isQuotable
  match rest.dropWhile isQuotable with
  | '"' :: after => (⟨.token (.text (String.ofList content)), '"' :: content ++ ['"']⟩, after)
  | after => (⟨.fault .unterminatedText, '"' :: content⟩, after)

/-- The piece made of `c` and all following characters of a class. -/
def spanning (p : Char → Bool) (kind : String → PieceKind) (c : Char) (rest : List Char) :
    Piece × List Char :=
  let run := c :: rest.takeWhile p
  (⟨kind (String.ofList run), run⟩, rest.dropWhile p)

/-- The first piece of the text `c :: rest`, and the text behind that piece. -/
def first (c : Char) (rest : List Char) : Piece × List Char :=
  if isGap c then spanning isGap (fun _ => .blank) c rest
  else if c = '#' then spanning isRemark (fun _ => .comment) c rest
  else if c.isDigit then spanning Char.isDigit (fun s => .token (.number s)) c rest
  else if c.isAlpha then spanning Char.isAlphanum (fun s => .token (.ofWord s)) c rest
  else if c = '"' then quoted rest
  else symbol c rest

theorem symbol_text_append (c : Char) (rest : List Char) :
    (symbol c rest).1.text ++ (symbol c rest).2 = c :: rest := by
  unfold symbol
  split
  · rfl
  · split <;> rfl

theorem quoted_text_append (rest : List Char) :
    (quoted rest).1.text ++ (quoted rest).2 = '"' :: rest := by
  have h := List.takeWhile_append_dropWhile (p := isQuotable) (l := rest)
  unfold quoted
  dsimp only
  split
  · rename_i after heq
    rw [heq] at h
    simp [h]
  · simp [h]

theorem spanning_text_append (p : Char → Bool) (kind : String → PieceKind) (c : Char)
    (rest : List Char) :
    (spanning p kind c rest).1.text ++ (spanning p kind c rest).2 = c :: rest := by
  simp [spanning, List.takeWhile_append_dropWhile]

/-- A piece and the text behind it make up the text. -/
theorem first_text_append (c : Char) (rest : List Char) :
    (first c rest).1.text ++ (first c rest).2 = c :: rest := by
  unfold first
  split
  · exact spanning_text_append ..
  split
  · exact spanning_text_append ..
  split
  · exact spanning_text_append ..
  split
  · exact spanning_text_append ..
  split
  · rename_i h
    rw [h]
    exact quoted_text_append rest
  · exact symbol_text_append c rest

/-- A piece holds at least one character. -/
theorem first_text_ne_nil (c : Char) (rest : List Char) : (first c rest).1.text ≠ [] := by
  unfold first spanning quoted symbol
  repeat' split
  all_goals simp

/-- The text behind a piece is shorter than the text. -/
theorem length_first_snd_lt (c : Char) (rest : List Char) :
    (first c rest).2.length < (c :: rest).length := by
  have h := congrArg List.length (first_text_append c rest)
  have pos := List.length_pos_iff.2 (first_text_ne_nil c rest)
  rw [List.length_append] at h
  omega

end Piece

/-- The pieces of a text, in order. -/
def pieces : List Char → List Piece
  | [] => []
  | c :: rest => (Piece.first c rest).1 :: pieces (Piece.first c rest).2
termination_by cs => cs.length
decreasing_by exact Piece.length_first_snd_lt c rest

/-- The pieces of a text, written one after the other, are the text. -/
theorem flatMap_text_pieces (cs : List Char) : (pieces cs).flatMap Piece.text = cs := by
  fun_induction pieces cs with
  | case1 => rfl
  | case2 c rest ih => rw [List.flatMap_cons, ih, Piece.first_text_append]

end LineBasic
