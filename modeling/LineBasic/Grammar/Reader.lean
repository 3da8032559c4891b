import LineBasic.Program.Basic
import LineBasic.Text.Numeral
import LineBasic.Token.Stream

/-!
# Reading tokens by the grammar

A reader looks at one token at a time, the current one, and draws the next from the stream only
when it has accepted the current one.  When the stream delivers an error instead of a token, the
current token stays where it is and the stream goes on behind the error.

Main definitions:

- `Expected` and `SyntaxError`: what the grammar asked for, and where it did not get it.
- `Reader`: actions on the current token and the stream behind it.
- `Reader.advance`, `Reader.eat`, `Reader.expect`: the steps from one token to the next.
- `Reader.numberLiteral` and `Reader.identifier`: the tokens that carry a value.
- `Reader.bounded`: an action that may go on for as many rounds as there are tokens left.
-/

namespace LineBasic

/-- What the grammar allows at some place. -/
inductive Expected where
  | token (t : Token)
  | number
  | identifier
  | operand
  | relation
  | statement
deriving DecidableEq, Repr

/-- What the grammar allows, as messages show it. -/
def Expected.describe : Expected → String
  | token t => t.describe
  | number => "<NUMBER-LITERAL>"
  | identifier => "<IDENTIFIER>"
  | operand => "<IDENTIFIER>, <NUMBER-LITERAL> or <LPAREN>"
  | relation => "<REL-OP>"
  | statement => "<STATEMENT>"

/-- Why a token cannot stand where it does. -/
inductive SyntaxFault where
  /-- The grammar allows something else here. -/
  | unexpected (expected : Expected) (found : Token)
  /-- The numeral is too large for a number. -/
  | numberOutOfRange (digits : String)
deriving DecidableEq, Repr

/-- The wording of each fault. -/
def SyntaxFault.message : SyntaxFault → String
  | unexpected expected found =>
    "Expected: " ++ expected.describe ++ " found: " ++ found.describe
  | numberOutOfRange digits => "Invalid number format: " ++ digits

/-- A token that cannot stand where it does. -/
structure SyntaxError where
  position : Position
  fault : SyntaxFault
deriving DecidableEq, Repr

/-- The position in brackets, then the fault. -/
def SyntaxError.message (e : SyntaxError) : String :=
  "[" ++ e.position.render ++ "] " ++ e.fault.message

/-- Why a text is no program. -/
inductive ParseError where
  | lexical (e : LexicalError)
  | grammatical (e : SyntaxError)
deriving DecidableEq, Repr

/-- An error speaks for itself. -/
def ParseError.message : ParseError → String
  | lexical e => e.message
  | grammatical e => e.message

/-- The token under consideration and the stream behind it. -/
structure ReaderState where
  current : Lexeme
  stream : TokenStream
deriving Repr

/-- The number of deliveries that are still to come before the stream ends. -/
def ReaderState.remaining (s : ReaderState) : Nat :=
  s.stream.upcoming.length

/-- The state at the start of a text, its first token drawn. -/
def ReaderState.ofText? (text : String) : Except ParseError ReaderState :=
  match (TokenStream.ofText text).next with
  | (.ok l, later) => .ok ⟨l, later⟩
  | (.error e, _) => .error (.lexical e)

/-- Actions that read tokens; a failed action keeps the state it failed in. -/
abbrev Reader := EStateM ParseError ReaderState

namespace Reader

/-- Draw the next token. -/
def advance : Reader Unit := fun s =>
  match s.stream.next with
  | (.ok l, later) => .ok () ⟨l, later⟩
  | (.error e, later) => .error (.lexical e) { s with stream := later }

/-- The current token. -/
def peek : Reader Token := do
  return (← get).current.token

/-- Fail at the current token. -/
def refuse {α : Type} (fault : SyntaxFault) : Reader α := do
  throw (.grammatical ⟨(← get).current.position, fault⟩)

/-- Fail because the grammar allows something else here. -/
def unexpected {α : Type} (expected : Expected) : Reader α := do
  refuse (.unexpected expected (← peek))

/-- Accept the token `t` if it is the current one, and say whether it was. -/
def eat (t : Token) : Reader Bool := do
  if (← peek) = t then
    advance
    return true
  else
    return false

/-- Accept the token `t`, which must be the current one. -/
def expect (t : Token) : Reader Unit := do
  unless ← eat t do
    unexpected (.token t)

/-- Accept a numeral and give its number, which must be in range. -/
def numberLiteral : Reader Int16 := do
  match ← peek with
  | .number digits =>
    match literalNumber? digits with
    | some n =>
      advance
      return n
    | none => refuse (.numberOutOfRange digits)
  | _ => unexpected .number

/-- Accept an identifier and give it in capitals. -/
def identifier : Reader String := do
  match ← peek with
  | .identifier spelling =>
    advance
    return upper spelling
  | _ => unexpected .identifier

/-- Further elements of a list, one behind each comma, with at most `bound` commas. -/
def afterCommas {α : Type} (element : Reader α) : (bound : Nat) → Reader (List α)
  | 0 => return []
  | bound + 1 => do
    if ← eat .comma then
      let first ← element
      let rest ← afterCommas element bound
      return first :: rest
    else
      return []

/-- One or more elements with commas between them, at most `bound` commas. -/
def commaList {α : Type} (element : Reader α) (bound : Nat) : Reader (List α) := do
  let first ← element
  let rest ← afterCommas element bound
  return first :: rest

/-- An action with a bound that no reading of the text exceeds: besides the current token it can
accept one for each delivery that is still to come. -/
def bounded {α : Type} (action : (bound : Nat) → Reader α) : Reader α := do
  action ((← get).remaining + 1)

end Reader

end LineBasic
