import LineBasic.Check.Numbering
import LineBasic.Scope.Basic

/-!
# Declarations and types

Statements are checked in the order of the text.  A declaration defines new names from there on;
every other use of a name needs a definition before it.  Values have the type of the variable
they are assigned to, both sides of a condition have one type, and arithmetic takes numbers.

Main definitions:

- `TypeError`: the first violation in a program, by its line.
- `Expr.type`: the type of an expression in a scope.
- `Stmt.check`: the scope behind a statement.
- `Program.scope`: the scope of all variables of a program.
-/

namespace LineBasic

/-- Violations of the rules on declarations and types. -/
inductive TypeFault where
  /-- The name is defined already. -/
  | redeclared (name : String)
  /-- The name is not defined yet. -/
  | undeclared (name : String)
  /-- The value has another type than the variable. -/
  | assignMismatch (name : String) (expected found : SymbolType)
  /-- The two sides of a condition differ in type. -/
  | compareMismatch (lhs rhs : SymbolType)
  /-- An operand of an operation is no number. -/
  | invalidOperands (lhs rhs : SymbolType)
deriving DecidableEq, Repr

namespace TypeFault

/-- The wording of each violation. -/
def message : TypeFault → String
  | redeclared name => "Found already declared variable: " ++ name
  | undeclared name => "Found undeclared variable: " ++ name
  | assignMismatch name expected found =>
    "Cannot assign " ++ found.spelling ++ " to " ++ expected.spelling ++ " variable " ++ name
  | compareMismatch lhs rhs => "Cannot compare " ++ lhs.spelling ++ " with " ++ rhs.spelling
  | invalidOperands lhs rhs =>
    "Invalid arithmetic operand types: " ++ lhs.spelling ++ " vs " ++ rhs.spelling

/-- Whether two types that had to agree do not. -/
def isMismatch : TypeFault → Bool
  | assignMismatch .. => true
  | compareMismatch .. => true
  | _ => false

end TypeFault

/-- A violation and the line it is on. -/
structure TypeError where
  line : Int16
  fault : TypeFault
deriving DecidableEq, Repr

/-- The line's number, then the violation. -/
def TypeError.message (e : TypeError) : String :=
  aboutLine e.line e.fault.message

/-! ## Expressions and statements -/

/-- The type of a name, which must be defined. -/
def Scope.require (scope : Scope) (name : String) : Except TypeFault SymbolType :=
  match scope.typeOf? name with
  | some type => .ok type
  | none => .error (.undeclared name)

/-- The type of an expression. -/
def Expr.type (scope : Scope) : Expr → Except TypeFault SymbolType
  | number _ => .ok .integer
  | text _ => .ok .string
  | name x => scope.require x
  | binary _ lhs rhs => do
    let l ← lhs.type scope
    let r ← rhs.type scope
    if l = .integer ∧ r = .integer then
      .ok .integer
    else
      .error (.invalidOperands l r)

/-- The scope behind the declaration of a new name. -/
def Scope.declare (scope : Scope) (type : SymbolType) (name : String) :
    Except TypeFault Scope :=
  match scope.resolve? name with
  | some _ => .error (.redeclared name)
  | none => .ok (scope.define name type)

/-- The scope behind the declarations of new names one after the other. -/
def Scope.declareAll (scope : Scope) (type : SymbolType) : List String → Except TypeFault Scope
  | [] => .ok scope
  | x :: rest => do
    let inner ← scope.declare type x
    inner.declareAll type rest

/-- Expressions of any type, one after the other. -/
def checkItems (scope : Scope) : List Expr → Except TypeFault Unit
  | [] => .ok ()
  | e :: rest => do
    let _ ← e.type scope
    checkItems scope rest

/-- The scope behind a statement. -/
def Stmt.check (scope : Scope) : Stmt → Except TypeFault Scope
  | declare type names => scope.declareAll type.symbolType names
  | assign name value => do
    let expected ← scope.require name
    let found ← value.type scope
    if expected = found then
      .ok scope
    else
      .error (.assignMismatch name expected found)
  | input name => do
    let _ ← scope.require name
    .ok scope
  | print items => do
    checkItems scope items
    .ok scope
  | cond lhs _ rhs body => do
    let l ← lhs.type scope
    let r ← rhs.type scope
    if l = r then
      body.check scope
    else
      .error (.compareMismatch l r)
  | goto _ => .ok scope
  | gosub _ => .ok scope
  | ret => .ok scope
  | stop => .ok scope

/-! ## Programs -/

/-- The scope behind lines one after the other. -/
def checkLines (scope : Scope) : List Line → Except TypeError Scope
  | [] => .ok scope
  | line :: rest =>
    match line.stmt.check scope with
    | .ok inner => checkLines inner rest
    | .error fault => .error ⟨line.number, fault⟩

/-- The scope that holds all variables of a program. -/
def Program.scope (program : Program) : Except TypeError Scope :=
  checkLines (.empty "GLOBAL") program.lines

end LineBasic
