import LineBasic.Scope.Basic
import LineBasic.Text.Numeral

/-!
# Values and arithmetic

Variables hold numbers or texts.  Arithmetic is exact: an operation either gives the result that
it has on all integers, division cutting off toward zero, or it faults.

Main definitions:

- `Value`: what a variable can hold, and how it is printed.
- `Fault`: what can go wrong with a statement.
- `apply`: the operations on sixteen-bit numbers.
-/

namespace LineBasic.Machine

/-- What a variable can hold. -/
inductive Value where
  | integer (n : Int16)
  | text (content : String)
deriving DecidableEq, Repr

namespace Value

/-- What a variable of a type holds before anything is assigned to it. -/
def initial? : SymbolType → Option Value
  | .void => none
  | .integer => some (.integer 0)
  | .string => some (.text "")

/-- The number that a value is, if it is one. -/
def toNumber? : Value → Option Int16
  | integer n => some n
  | text _ => none

/-- A value as it is printed: a number in decimal, a text as it is. -/
def render : Value → String
  | integer n => toString n
  | text content => content

end Value

/-- What can go wrong with a statement. -/
inductive Fault where
  /-- A return with no jump to come back from. -/
  | emptyStack
  /-- A result outside the sixteen-bit range. -/
  | overflow
  /-- A divisor that is zero. -/
  | divisionByZero
  /-- A text where only numbers can be compared or computed with. -/
  | nonInteger
  /-- A variable that holds nothing. -/
  | undefinedVariable (name : String)
  /-- No further line of input. -/
  | endOfInput
deriving DecidableEq, Repr

/-- The wording of each fault. -/
def Fault.message : Fault → String
  | emptyStack => "Stack empty"
  | overflow => "Arithmetic overflow"
  | divisionByZero => "Division by zero"
  | nonInteger => "Cannot compare non integer values"
  | undefinedVariable name => "Variable " ++ name ++ " has no value"
  | endOfInput => "Input stream closed"

/-- The result of an operation on all integers; division cuts off toward zero. -/
def exact (op : ArithOp) (l r : Int) : Int :=
  match op with
  | .add => l + r
  | .sub => l - r
  | .mul => l * r
  | .div => l.tdiv r

/-- An operation on sixteen-bit numbers: its exact result, or the reason there is none. -/
def apply (op : ArithOp) (l r : Int16) : Except Fault Int16 :=
  if op = .div ∧ r = 0 then
    .error .divisionByZero
  else
    match number? (exact op l.toInt r.toInt) with
    | some n => .ok n
    | none => .error .overflow

end LineBasic.Machine
