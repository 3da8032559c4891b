import LineBasic.Check.Typing
import LineBasic.Grammar.Statement
import LineBasic.Lowering.Image
import LineBasic.Machine.Step
import LineBasic.Program.Outline

/-!
# The toolchain

Everything that can be done with the text of a program.  Every use checks the whole text first:
it must be a program, its lines and jumps must be in order, and its declarations and types must
fit.

Main definitions:

- `SourceError`: why a text is refused.
- `check`: the program and the scope of a text.
- `outline`, `assemble` and `interpret`: the three uses of a program.
-/

namespace LineBasic

/-- Why a text is refused. -/
inductive SourceError where
  | parse (e : ParseError)
  | structural (e : StructuralError)
  | typing (e : TypeError)
deriving DecidableEq, Repr

/-- An error speaks for itself. -/
def SourceError.message : SourceError → String
  | parse e => e.message
  | structural e => e.message
  | typing e => e.message

/-- A program that has passed all checks, and the scope of its variables. -/
structure Checked where
  program : Program
  scope : Scope
deriving DecidableEq, Repr

/-- The program and the scope of a text. -/
def check (source : String) : Except SourceError Checked := do
  let program ← (Program.parse source).mapError .parse
  program.checkNumbering.mapError .structural
  let scope ← program.scope.mapError .typing
  return { program, scope }

/-- The outline of a program. -/
def outline (source : String) : Except SourceError String := do
  return (← check source).program.outline

/-- The image of a program. -/
def assemble (source : String) : Except SourceError Image := do
  let checked ← check source
  return Image.ofProgram checked.scope checked.program

/-- The assembly text of a program. -/
def assemblyText (source : String) : Except SourceError String := do
  return Assembly.render (← assemble source).listing

/-- How a program ended and what it printed. -/
structure Performance where
  outcome : Except Machine.RuntimeError Bool
  output : Array UInt8

/-- The performance of a program on an input. -/
def interpret (source : String) (input : List UInt8) : Except SourceError Performance := do
  let checked ← check source
  match (Machine.run checked.program checked.scope).run (.start checked.scope input none) with
  | .ok ended s => return ⟨.ok ended, s.output.written⟩
  | .error e s => return ⟨.error e, s.output.written⟩

end LineBasic
