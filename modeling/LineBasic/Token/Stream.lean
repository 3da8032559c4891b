import LineBasic.Text.Position
import LineBasic.Token.Piece

/-!
# Token streams

What a reader of tokens meets in a text: every token with its position, every fault as an error
with its position, and the end of the text for ever after.  Blanks and comments are not
delivered.

Main definitions:

- `deliveries`: the tokens and errors of a list of pieces.
- `TokenStream.ofText` and `TokenStream.next`: the stream of a text, and one step of it.
- `TokenStream.untilEnd`: the whole stream up to its end or its first error.
-/

namespace LineBasic

/-- A token and the position of its first character. -/
structure Lexeme where
  token : Token
  position : Position
deriving DecidableEq, Repr

/-- A stretch of text that is no token, by its first character's position. -/
structure LexicalError where
  position : Position
  fault : LexicalFault
deriving DecidableEq, Repr

namespace LexicalFault

/-- How a stretch of text that is no token is shown among tokens. -/
def describe (_ : LexicalFault) : String := "<ERROR>"

/-- The wording of each fault. -/
def message : LexicalFault → String
  | invalidCharacter c => "Invalid character found: (" ++ String.singleton c ++ ")"
  | unterminatedText => "Unterminated string literal"
  | malformedLineBreak => "Malformed line break, expected \\r\\n"
  | loneExclamation => "Expected: (=) after (!)"

end LexicalFault

/-- The position in brackets, then the fault. -/
def LexicalError.message (e : LexicalError) : String :=
  "[" ++ e.position.render ++ "] " ++ e.fault.message

/-- What a reader is given for a token or for a fault. -/
abbrev Delivery := Except LexicalError Lexeme

/-- The tokens and errors among pieces, the first of which stands at `p`. -/
def deliveries (p : Position) : List Piece → List Delivery
  | [] => []
  | piece :: rest =>
    let later := deliveries (p.after piece.text) rest
    match piece.kind with
    | .token t => .ok ⟨t, p⟩ :: later
    | .fault f => .error ⟨p, f⟩ :: later
    | .blank => later
    | .comment => later

/-- The unread rest of a text as tokens and errors, and the position of its end. -/
structure TokenStream where
  upcoming : List Delivery
  stop : Position
deriving Repr

namespace TokenStream

/-- The stream of a whole text. -/
def ofText (text : String) : TokenStream where
  upcoming := deliveries .start (pieces text.toList)
  stop := endPosition text

/-- The lexeme that ends a stream. -/
def final (s : TokenStream) : Lexeme :=
  ⟨.endOfInput, s.stop⟩

/-- What comes next, and the stream behind it.  A stream that is used up goes on ending. -/
def next (s : TokenStream) : Delivery × TokenStream :=
  match s.upcoming with
  | [] => (.ok s.final, s)
  | d :: later => (d, { s with upcoming := later })

/-- The next `n` deliveries; errors do not stop the stream. -/
def take (s : TokenStream) : Nat → List Delivery
  | 0 => []
  | n + 1 => s.next.1 :: s.next.2.take n

end TokenStream

/-- Deliveries up to the first error, that included; without an error the lexeme `final`
closes them. -/
def untilError (final : Lexeme) : List Delivery → List Delivery
  | [] => [.ok final]
  | .ok l :: later => .ok l :: untilError final later
  | .error e :: _ => [.error e]

namespace TokenStream

/-- All tokens with the end of the text as the last one, or those before the first error and
the error. -/
def untilEnd (s : TokenStream) : List Delivery :=
  untilError s.final s.upcoming

end TokenStream

/-! ## Reading a stream once -/

/-- A stream that is read up to its end or its first error, and then has nothing more. -/
structure TokenReader where
  stream : TokenStream
  finished : Bool
deriving Repr

namespace TokenReader

/-- A reader at the start of a text. -/
def ofText (text : String) : TokenReader :=
  ⟨.ofText text, false⟩

/-- A delivery after which a reader has nothing more. -/
def isLast : Delivery → Bool
  | .ok l => l.token == .endOfInput
  | .error _ => true

/-- The next delivery, unless the last one has been read. -/
def next? (r : TokenReader) : Option Delivery × TokenReader :=
  if r.finished then (none, r)
  else (some r.stream.next.1, ⟨r.stream.next.2, isLast r.stream.next.1⟩)

/-- The answers to the next `n` requests. -/
def take (r : TokenReader) : Nat → List (Option Delivery)
  | 0 => []
  | n + 1 => r.next?.1 :: r.next?.2.take n

end TokenReader

end LineBasic
