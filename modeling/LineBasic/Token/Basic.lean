import LineBasic.Text.Letters

/-!
# Tokens

The tokens of a program text and the way messages show them.  Numerals, string texts and
identifiers keep the spelling they have in the text.

Main definitions:

- `Keyword.ofWord?`: the keyword that a run of letters and digits spells, in any letter case.
- `Token.describe`: a token as it is shown to the user.
-/

namespace LineBasic

/-- The reserved words. -/
inductive Keyword where
  | integer | string | assign | input | print | test | consequent | goto | gosub | ret | stop
deriving DecidableEq, Repr

namespace Keyword

/-- The canonical spelling of a keyword. -/
def spelling : Keyword → String
  | integer => "INTEGER"
  | string => "STRING"
  | assign => "LET"
  | input => "INPUT"
  | print => "PRINT"
  | test => "IF"
  | consequent => "THEN"
  | goto => "GOTO"
  | gosub => "GOSUB"
  | ret => "RETURN"
  | stop => "END"

/-- Every keyword once. -/
def all : List Keyword :=
  [integer, string, assign, input, print, test, consequent, goto, gosub, ret, stop]

/-- The keyword that a word spells; letter case does not matter. -/
def ofWord? (word : String) : Option Keyword :=
  all.find? fun k => k.spelling == upper word

/-- A keyword is found by its own spelling. -/
theorem ofWord?_spelling (k : Keyword) : ofWord? k.spelling = some k := by
  cases k <;> decide

end Keyword

/-- The tokens of a program text; `endOfInput` stands for the end of it. -/
inductive Token where
  | number (digits : String)
  | text (content : String)
  | identifier (spelling : String)
  | keyword (k : Keyword)
  | plus | minus | times | divide
  | becomes
  | equal | notEqual | greater | greaterEqual | less | lessEqual
  | leftParen | rightParen | comma | lineBreak
  | endOfInput
deriving DecidableEq, Repr

namespace Token

/-- Tokens of a kind with a value are shown as the kind and the quoted value. -/
def tagged (kind value : String) : String :=
  "<" ++ kind ++ ",\"" ++ value ++ "\">"

/-- A token as messages show it. -/
def describe : Token → String
  | number digits => tagged "NUMBER-LITERAL" digits
  | text content => tagged "STRING-LITERAL" content
  | identifier spelling => tagged "IDENTIFIER" spelling
  | keyword k => tagged "KEYWORD" k.spelling
  | plus => tagged "ARITH-OP" "+"
  | minus => tagged "ARITH-OP" "-"
  | times => tagged "ARITH-OP" "*"
  | divide => tagged "ARITH-OP" "/"
  | becomes => "<ASSIGN>"
  | equal => tagged "REL-OP" "=="
  | notEqual => tagged "REL-OP" "!="
  | greater => tagged "REL-OP" ">"
  | greaterEqual => tagged "REL-OP" ">="
  | less => tagged "REL-OP" "<"
  | lessEqual => tagged "REL-OP" "<="
  | leftParen => "<LPAREN>"
  | rightParen => "<RPAREN>"
  | comma => "<COMMA>"
  | lineBreak => "<LINE-BREAK>"
  | endOfInput => "<END-OF-INPUT>"

/-- A run of letters and digits is a keyword if it spells one, and else an identifier. -/
def ofWord (word : String) : Token :=
  match Keyword.ofWord? word with
  | some k => keyword k
  | none => identifier word

end Token

end LineBasic
