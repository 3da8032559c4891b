import LineBasic.Lowering.LiteralPool
import LineBasic.Scope.Basic

/-!
# Code of expressions

The code of an expression leaves one word on the stack: the value of a number, or the address of
a text.  An operation takes its operands from the stack and tests for overflow; a division tests
its operands before it divides, because the processor would trap on the ones without a result.

Main definitions:

- `Lowering`: the generation of code that numbers texts and divisions.
- `operation`: the code of an arithmetic operation.
- `lowerExpr`: the code of an expression.
-/

namespace LineBasic

open Assembly

/-- What has been numbered so far: the texts, and how many divisions. -/
structure LoweringState where
  pool : LiteralPool := {}
  divisions : Nat := 0
deriving DecidableEq, Repr

/-- The generation of code that numbers texts and divisions. -/
abbrev Lowering := StateM LoweringState

namespace Lowering

/-- The label of a text. -/
def literal (text : String) : Lowering Label := fun s =>
  let (i, pool) := s.pool.intern text
  (.literal i, { s with pool })

/-- A place that no other division uses. -/
def division : Lowering Spot := fun s =>
  (.division s.divisions, { s with divisions := s.divisions + 1 })

end Lowering

/-- Whether a name is that of a text variable. -/
def Scope.isString (scope : Scope) (name : String) : Bool :=
  scope.typeOf? name == some .string

/-- What an instruction takes as the word of a variable: the number in it, or the address of its
text. -/
def variableWord (scope : Scope) (name : String) : Operand :=
  if scope.isString name then .address (.var name) else .cell (.var name)

/-- The result of an operation that ends with a test for overflow. -/
def guarded (i : Instr) : List Item :=
  code [.pop .bx, .pop .ax, i, .jump .o (.routine .arithmeticOverflow), .push .ax]

/-- The code of a division that continues at `safe` once its operands are found good. -/
def divisionCode (safe : Spot) : List Item :=
  code
    [.pop .bx, .pop .ax, .cwd,
      .cmp .bx (.hex2 0), .jump .e (.routine .divisionByZero),
      .cmp .bx (.dec (-1)), .jump .ne (.inner safe),
      .cmp .ax (.hex4 0x8000), .jump .e (.routine .arithmeticOverflow)] ++
  .label (.inner safe) :: code [.idiv .bx, .push .ax]

/-- The code of an operation whose operands are on the stack, the right one on top. -/
def operation : ArithOp → Lowering (List Item)
  | .add => return guarded (.add .ax .bx)
  | .sub => return guarded (.sub .ax .bx)
  | .mul => return guarded (.imul .bx)
  | .div => return divisionCode (← Lowering.division)

/-- The code of an expression. -/
def lowerExpr (scope : Scope) : Expr → Lowering (List Item)
  | .number n => return code [.mov .ax (.dec n.toInt), .push .ax]
  | .text content => return code [.mov .ax (.address (← Lowering.literal content)), .push .ax]
  | .name x => return code [.mov .ax (variableWord scope x), .push .ax]
  | .binary op lhs rhs => do
    let l ← lowerExpr scope lhs
    let r ← lowerExpr scope rhs
    let o ← operation op
    return l ++ r ++ o

end LineBasic
