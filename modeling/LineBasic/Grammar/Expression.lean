import LineBasic.Grammar.Reader

/-!
# The grammar of expressions

    item       ::= TEXT | expr
    items      ::= item { "," item }
    expr       ::= [ "+" ] [ "-" ] term { ( "+" | "-" ) term }
    term       ::= factor { ( "*" | "/" ) factor }
    factor     ::= IDENTIFIER | NUMBER | "(" expr ")"

All operations group to the left.  A leading minus sign takes the first term from zero; a leading
plus sign and parentheses leave no trace in the tree.

Main definitions:

- `Reader.factor`, `Reader.term`, `Reader.sum`: one level of the grammar each, for a given reading
  of what stands in parentheses.
- `Reader.exprWithin`: expressions read within a bound on their length, which each opening
  parenthesis lowers.
- `Reader.expr`, `Reader.item`, `Reader.items`: the readings of the three rules above.
-/

namespace LineBasic

/-- The operation that a token stands for between terms. -/
def Token.additive? : Token → Option ArithOp
  | plus => some .add
  | minus => some .sub
  | _ => none

/-- The operation that a token stands for between factors. -/
def Token.multiplicative? : Token → Option ArithOp
  | times => some .mul
  | divide => some .div
  | _ => none

namespace Reader

/-- An operand, with `nested` reading what stands in parentheses. -/
def factor (nested : Reader Expr) : Reader Expr := do
  match ← peek with
  | .identifier _ => return .name (← identifier)
  | .number _ => return .number (← numberLiteral)
  | .leftParen =>
    advance
    let e ← nested
    expect .rightParen
    return e
  | _ => unexpected .operand

/-- Further operands of one level, at most `bound` of them, grouped to the left onto `lhs`. -/
def leftAssoc (op? : Token → Option ArithOp) (operand : Reader Expr) :
    (bound : Nat) → Expr → Reader Expr
  | 0, lhs => return lhs
  | bound + 1, lhs => do
    match op? (← peek) with
    | some op =>
      advance
      let rhs ← operand
      leftAssoc op? operand bound (.binary op lhs rhs)
    | none => return lhs

/-- At most `bound` further factors behind the first one, joined by multiplication and
division. -/
def term (nested : Reader Expr) (bound : Nat) : Reader Expr := do
  let first ← factor nested
  leftAssoc Token.multiplicative? (factor nested) bound first

/-- A term, or its negative written as a difference. -/
def negate (negative : Bool) (e : Expr) : Expr :=
  if negative then .binary .sub (.number 0) e else e

/-- At most `bound` further terms behind the first one, joined by addition and subtraction; the
first one may be signed. -/
def sum (nested : Reader Expr) (bound : Nat) : Reader Expr := do
  let _ ← eat .plus
  let negative ← eat .minus
  let first ← term nested bound
  leftAssoc Token.additive? (term nested bound) bound (negate negative first)

/-- An expression; `bound` is to exceed the number of tokens left. -/
def exprWithin : (bound : Nat) → Reader Expr
  | 0 => unexpected .operand
  | bound + 1 => sum (exprWithin bound) (bound + 1)

/-- A text or an expression; `bound` is to exceed the number of tokens left. -/
def itemWithin (bound : Nat) : Reader Expr := do
  match ← peek with
  | .text content =>
    advance
    return .text content
  | _ => exprWithin bound

/-- Items with commas between them; `bound` is to exceed the number of tokens left. -/
def itemsWithin (bound : Nat) : Reader (List Expr) :=
  commaList (itemWithin bound) bound

/-- An expression. -/
def expr : Reader Expr := bounded exprWithin

/-- A text or an expression. -/
def item : Reader Expr := bounded itemWithin

/-- One or more items with commas between them. -/
def items : Reader (List Expr) := bounded itemsWithin

end Reader

end LineBasic
