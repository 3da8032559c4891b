import LineBasic.Lowering.Expression

/-!
# Code of statements and lines

The code of a line runs from its label to a place at its end, where a condition that does not
hold jumps to.  Numbers are stored in words; texts are stored in buffers of a fixed size, and
are always moved as whole buffers.

Main definitions:

- `stringSize`: the size of a text variable.
- `lowerStmt`, `lowerLine`: the code of a statement and of a line.
-/

namespace LineBasic

open Assembly

/-- The number of bytes in a text variable, the zero that ends the text among them. -/
def stringSize : Nat := 32

/-- The size of a text variable as an operand. -/
def stringSizeOperand : Operand :=
  .dec stringSize

/-- The call of a routine. -/
def callRoutine (r : Routine) : Instr :=
  .call (.routine r)

/-- The code that copies a whole buffer into a variable. -/
def copyString (src : Label) (name : String) : List Item :=
  code
    [.mov .si (.address src), .mov .di (.address (.var name)), .mov .cx stringSizeOperand,
      .repMovsb]

/-- The code that gives a variable its initial value. -/
def lowerReset (scope : Scope) (name : String) : List Item :=
  if scope.isString name then
    code
      [.mov .di (.address (.var name)), .mov .cx stringSizeOperand, .xor .al .al, .repStosb]
  else
    code [.mov (.cell (.var name)) (.constant (some .word) (.decimal 0))]

/-- The code of an assignment. -/
def lowerAssign (scope : Scope) (name : String) : Expr → Lowering (List Item)
  | .number n =>
    return code [.mov (.cell (.var name)) (.constant (some .word) (.decimal n.toInt))]
  | .text content => return copyString (← Lowering.literal content) name
  | .name x =>
    if scope.isString name then
      return copyString (.var x) name
    else
      return code [.mov .ax (.cell (.var x)), .mov (.cell (.var name)) .ax]
  | .binary op lhs rhs => do
    let e ← lowerExpr scope (.binary op lhs rhs)
    return e ++ code [.pop (.memory (some .word) (.label (.var name)))]

/-- The code that reads a line from the keyboard into a buffer. -/
def readLine (buffer : Label) : List Item :=
  code
    [.mov .cx stringSizeOperand, .mov .dx (.address buffer), callRoutine .readString,
      callRoutine .newLine]

/-- The code that gives a variable a value from the keyboard, which is asked for again until it
is of the right type. -/
def lowerInput (scope : Scope) (name : String) : List Item :=
  if scope.isString name then
    readLine (.var name)
  else
    .label (.inner .readNumber) :: readLine .scratch ++
    code
      [.mov .cx (.address (.var name)), .mov .dx (.address .scratch),
        callRoutine .stringToNumber, .cmp .al (.dec 0), .jump .e (.inner .readNumber)]

/-- The code that prints a word or the text at an address. -/
def printOperand (src : Operand) (r : Routine) : List Item :=
  code [.mov .dx src, callRoutine r]

/-- The code that prints an item. -/
def lowerItem (scope : Scope) : Expr → Lowering (List Item)
  | .number n => return printOperand (.dec n.toInt) .printNumber
  | .text content => return printOperand (.address (← Lowering.literal content)) .printString
  | .name x =>
    return printOperand (variableWord scope x)
      (if scope.isString x then .printString else .printNumber)
  | .binary op lhs rhs => do
    let e ← lowerExpr scope (.binary op lhs rhs)
    return e ++ code [.pop .dx, callRoutine .printNumber]

/-- The code that prints items one after the other. -/
def lowerItems (scope : Scope) : List Expr → Lowering (List Item)
  | [] => return []
  | e :: rest => do
    let here ← lowerItem scope e
    let later ← lowerItems scope rest
    return here ++ later

/-- The condition under which a relation does not hold between two numbers just compared. -/
def Relop.negation : Relop → Condition
  | .less => .nl
  | .lessEqual => .nle
  | .greater => .ng
  | .greaterEqual => .nge
  | .equal => .ne
  | .notEqual => .e

/-- The code of a statement. -/
def lowerStmt (scope : Scope) : Stmt → Lowering (List Item)
  | .declare _ names => return names.flatMap (lowerReset scope)
  | .assign name value => lowerAssign scope name value
  | .input name => return lowerInput scope name
  | .print items => do
    let body ← lowerItems scope items
    return body ++ code [callRoutine .newLine]
  | .cond lhs op rhs body => do
    let l ← lowerExpr scope lhs
    let r ← lowerExpr scope rhs
    let b ← lowerStmt scope body
    return l ++ r ++
      code [.pop .bx, .pop .ax, .cmp .ax .bx, .jump op.negation (.inner .lineEnd)] ++ b
  | .goto target => return code [.jmp (.line target)]
  | .gosub target => return code [.call (.line target)]
  | .ret => return code [.ret]
  | .stop => return code [callRoutine .terminateProgram]

/-- The code of a line. -/
def lowerLine (scope : Scope) (line : Line) : Lowering (List Item) := do
  let body ← lowerStmt scope line.stmt
  return .blank :: .label (.line line.number) :: body ++ [.label (.inner .lineEnd)]

/-- The code of lines one after the other. -/
def lowerLines (scope : Scope) : List Line → Lowering (List Item)
  | [] => return []
  | line :: rest => do
    let here ← lowerLine scope line
    let later ← lowerLines scope rest
    return here ++ later

end LineBasic
