import LineBasic.Grammar.Expression

/-!
# The grammar of statements and programs

    program    ::= { [ line ] LINE-BREAK } [ line ]
    line       ::= NUMBER statement
    statement  ::= ( "INTEGER" | "STRING" ) IDENTIFIER { "," IDENTIFIER }
                 | "LET" IDENTIFIER "=" item
                 | "INPUT" IDENTIFIER
                 | "PRINT" items
                 | "IF" expr RELATION expr "THEN" statement
                 | "GOTO" NUMBER | "GOSUB" NUMBER | "RETURN" | "END"

Main definitions:

- `Reader.statementWithin`, `Reader.lineWithin`, `Reader.linesWithin`: the readings of the rules
  with a bound on their length, which each nested statement and each line break lowers.
- `Reader.statement` and `Reader.program`: the same without a bound.
- `Program.parse`: the program that a text is.
-/

namespace LineBasic

/-- The relation that a token stands for. -/
def Token.relop? : Token → Option Relop
  | less => some .less
  | lessEqual => some .lessEqual
  | greater => some .greater
  | greaterEqual => some .greaterEqual
  | equal => some .equal
  | notEqual => some .notEqual
  | _ => none

namespace Reader

/-- Accept a relation. -/
def relation : Reader Relop := do
  match (← peek).relop? with
  | some op =>
    advance
    return op
  | none => unexpected .relation

/-- A declaration, its type being the current token. -/
def declaration (type : DeclaredType) (bound : Nat) : Reader Stmt := do
  advance
  return .declare type (← commaList identifier bound)

/-- An assignment. -/
def assignment (bound : Nat) : Reader Stmt := do
  advance
  let name ← identifier
  expect .becomes
  let value ← itemWithin bound
  return .assign name value

/-- A conditional statement, with `nested` reading the statement behind its condition. -/
def conditional (nested : Reader Stmt) (bound : Nat) : Reader Stmt := do
  advance
  let lhs ← exprWithin bound
  let op ← relation
  let rhs ← exprWithin bound
  expect (.keyword .consequent)
  let body ← nested
  return .cond lhs op rhs body

/-- The statement that a keyword opens, with `nested` reading a statement inside it. -/
def statementOf (nested : Reader Stmt) (bound : Nat) : Keyword → Reader Stmt
  | .integer => declaration .integer bound
  | .string => declaration .string bound
  | .assign => assignment bound
  | .input => do
    advance
    return .input (← identifier)
  | .print => do
    advance
    return .print (← itemsWithin bound)
  | .test => conditional nested bound
  | .goto => do
    advance
    return .goto (← numberLiteral)
  | .gosub => do
    advance
    return .gosub (← numberLiteral)
  | .ret => do
    advance
    return .ret
  | .stop => do
    advance
    return .stop
  | .consequent => unexpected .statement

/-- A statement; `bound` is to exceed the number of tokens left. -/
def statementWithin : (bound : Nat) → Reader Stmt
  | 0 => unexpected .statement
  | bound + 1 => do
    match ← peek with
    | .keyword k => statementOf (statementWithin bound) (bound + 1) k
    | _ => unexpected .statement

/-- A numbered statement; `bound` is to exceed the number of tokens left. -/
def lineWithin (bound : Nat) : Reader Line := do
  let number ← numberLiteral
  let stmt ← statementWithin bound
  return ⟨number, stmt⟩

/-- A line if a number is next, and nothing otherwise. -/
def lineWithin? (bound : Nat) : Reader (List Line) := do
  match ← peek with
  | .number _ => return [← lineWithin bound]
  | _ => return []

/-- Lines up to the end of the text, over at most `bound` line breaks. -/
def linesWithin : (bound : Nat) → Reader (List Line)
  | 0 => return []
  | bound + 1 => do
    if (← peek) = .endOfInput then
      return []
    let here ← lineWithin? (bound + 1)
    if (← peek) = .endOfInput then
      return here
    expect .lineBreak
    let rest ← linesWithin bound
    return here ++ rest

/-- A statement. -/
def statement : Reader Stmt := bounded statementWithin

/-- A program: all lines up to the end of the text. -/
def program : Reader Program := do
  return ⟨← bounded linesWithin⟩

end Reader

/-- The program that a text is. -/
def Program.parse (text : String) : Except ParseError Program := do
  let s ← ReaderState.ofText? text
  match Reader.program.run s with
  | .ok p _ => .ok p
  | .error e _ => .error e

end LineBasic
