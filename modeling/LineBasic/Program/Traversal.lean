import LineBasic.Program.Basic

/-!
# Visiting a program tree

A visitor says for each kind of node what to do around the visit of the node's children: it is
given the node and the action that visits the children, and may run that action, skip it, or
put work before and behind it.  A visitor that only runs the action visits the whole tree, each
node before its children and children in the order of the tree.

Main definitions:

- `Visitor`: what to do at each kind of node.
- `Visitor.visitProgram`: the visit of a whole program.
- `recorder` and `exprCounter`: visitors that list nodes and that count expressions.
-/

namespace LineBasic

/-- A node of a program tree, with all that hangs below it. -/
inductive Node where
  | program (p : Program)
  | line (l : Line)
  | stmt (s : Stmt)
  | expr (e : Expr)
deriving DecidableEq, Repr

/-- What to do at each kind of node; the second argument visits the children. -/
structure Visitor (m : Type → Type) where
  onProgram : Program → m Unit → m Unit := fun _ children => children
  onLine : Line → m Unit → m Unit := fun _ children => children
  onStmt : Stmt → m Unit → m Unit := fun _ children => children
  onExpr : Expr → m Unit → m Unit := fun _ children => children

namespace Visitor

variable {m : Type → Type} [Monad m]

/-- The visit of an expression. -/
def visitExpr (v : Visitor m) : Expr → m Unit
  | .number n => v.onExpr (.number n) (pure ())
  | .text content => v.onExpr (.text content) (pure ())
  | .name x => v.onExpr (.name x) (pure ())
  | .binary op lhs rhs =>
    v.onExpr (.binary op lhs rhs) do
      visitExpr v lhs
      visitExpr v rhs

/-- The visit of expressions one after the other. -/
def visitExprs (v : Visitor m) : List Expr → m Unit
  | [] => pure ()
  | e :: rest => do
    v.visitExpr e
    visitExprs v rest

/-- The visit of a statement. -/
def visitStmt (v : Visitor m) : Stmt → m Unit
  | .declare type names => v.onStmt (.declare type names) (pure ())
  | .assign name value => v.onStmt (.assign name value) (v.visitExpr value)
  | .input name => v.onStmt (.input name) (pure ())
  | .print items => v.onStmt (.print items) (v.visitExprs items)
  | .cond lhs op rhs body =>
    v.onStmt (.cond lhs op rhs body) do
      v.visitExpr lhs
      v.visitExpr rhs
      visitStmt v body
  | .goto target => v.onStmt (.goto target) (pure ())
  | .gosub target => v.onStmt (.gosub target) (pure ())
  | .ret => v.onStmt .ret (pure ())
  | .stop => v.onStmt .stop (pure ())

/-- The visit of a line. -/
def visitLine (v : Visitor m) (line : Line) : m Unit :=
  v.onLine line (v.visitStmt line.stmt)

/-- The visit of lines one after the other. -/
def visitLines (v : Visitor m) : List Line → m Unit
  | [] => pure ()
  | line :: rest => do
    v.visitLine line
    visitLines v rest

/-- The visit of a program. -/
def visitProgram (v : Visitor m) (program : Program) : m Unit :=
  v.onProgram program (v.visitLines program.lines)

end Visitor

/-! ## Two visitors -/

/-- A visit that lists nodes and may stop with a number. -/
abbrev Recording := EStateM Nat (List Node)

/-- Whether a statement is conditional. -/
def Stmt.isCond : Stmt → Bool
  | cond .. => true
  | _ => false

/-- Add a node to the list; the node that makes the list `stopAt` long stops the visit. -/
def record (stopAt : Option Nat) (node : Node) : Recording Unit := do
  let seen := (← get) ++ [node]
  set seen
  if stopAt = some seen.length then
    throw seen.length

/-- Lists every node before its children.  The visit stops when `stopAt` nodes are listed, and
passes over the children of conditional statements if `skipCond` is set. -/
def recorder (stopAt : Option Nat) (skipCond : Bool) : Visitor Recording where
  onProgram p children := do
    record stopAt (.program p)
    children
  onLine l children := do
    record stopAt (.line l)
    children
  onStmt s children := do
    record stopAt (.stmt s)
    if skipCond && s.isCond then
      pure ()
    else
      children
  onExpr e children := do
    record stopAt (.expr e)
    children

/-- Counts the expressions of a tree, those inside other expressions included. -/
def exprCounter : Visitor (StateM Nat) where
  onExpr _ children := do
    modify (· + 1)
    children

/-- The nodes listed in a visit, and the number it stopped with if it did. -/
def Program.record (program : Program) (stopAt : Option Nat) (skipCond : Bool) :
    List Node × Option Nat :=
  match ((recorder stopAt skipCond).visitProgram program).run [] with
  | .ok _ seen => (seen, none)
  | .error n seen => (seen, some n)

/-- The number of expressions in a program. -/
def Program.exprCount (program : Program) : Nat :=
  ((exprCounter.visitProgram program).run 0).2

end LineBasic
