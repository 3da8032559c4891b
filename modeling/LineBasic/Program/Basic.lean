/-!
# Programs

A program is a list of numbered lines with one statement each.  The tree says nothing about
layout: parentheses, letter case and comments leave no trace in it.

Main definitions:

- `Expr`, `Stmt`, `Line` and `Program`: the tree.
- `Relop.holds`: what a relation says about the order of its two sides.
-/

namespace LineBasic

/-- The types a declaration can give to a variable. -/
inductive DeclaredType where
  | integer | string
deriving DecidableEq, Repr

/-- The arithmetic operations. -/
inductive ArithOp where
  | add | sub | mul | div
deriving DecidableEq, Repr

/-- The relations of a condition. -/
inductive Relop where
  | less | lessEqual | greater | greaterEqual | equal | notEqual
deriving DecidableEq, Repr

/-- Expressions, and the texts that may stand where a statement allows either. -/
inductive Expr where
  | number (n : Int16)
  | text (content : String)
  | name (x : String)
  | binary (op : ArithOp) (lhs rhs : Expr)
deriving DecidableEq, Repr

/-- Statements. -/
inductive Stmt where
  /-- New variables of one type. -/
  | declare (type : DeclaredType) (names : List String)
  /-- A new value for a variable. -/
  | assign (name : String) (value : Expr)
  /-- A value for a variable from the next line of input. -/
  | input (name : String)
  /-- One line of output, its items one after the other. -/
  | print (items : List Expr)
  /-- A statement that runs only if two numbers stand in a relation. -/
  | cond (lhs : Expr) (op : Relop) (rhs : Expr) (body : Stmt)
  /-- Go on at the line with this number. -/
  | goto (target : Int16)
  /-- Go on at the line with this number, and come back on return. -/
  | gosub (target : Int16)
  /-- Go on behind the jump that was made last and has not come back. -/
  | ret
  /-- Stop. -/
  | stop
deriving DecidableEq, Repr

/-- A numbered statement. -/
structure Line where
  number : Int16
  stmt : Stmt
deriving DecidableEq, Repr

/-- A program: its lines as they are written. -/
structure Program where
  lines : List Line
deriving DecidableEq, Repr

/-! ## Spelling of types, operators and line numbers -/

/-- The word that declares variables of a type. -/
def DeclaredType.spelling : DeclaredType → String
  | integer => "INTEGER"
  | string => "STRING"

/-- The sign of an operation. -/
def ArithOp.spelling : ArithOp → String
  | add => "+"
  | sub => "-"
  | mul => "*"
  | div => "/"

/-- The sign of a relation; unequal is written with an exclamation mark. -/
def Relop.spelling : Relop → String
  | less => "<"
  | lessEqual => "<="
  | greater => ">"
  | greaterEqual => ">="
  | equal => "=="
  | notEqual => "!="

/-- Messages about a line begin with its number. -/
def aboutLine (line : Int16) (message : String) : String :=
  "[Line " ++ toString line ++ "] " ++ message

/-! ## Relations -/

/-- Whether a relation holds between two sides of which the left one compares as `o` with the
right one. -/
def Relop.holds (op : Relop) (o : Ordering) : Bool :=
  match op with
  | less => o.isLT
  | lessEqual => o.isLE
  | greater => o.isGT
  | greaterEqual => o.isGE
  | equal => o.isEq
  | notEqual => o.isNe

end LineBasic
