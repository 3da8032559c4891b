import LineBasic.Program.Traversal

/-!
# Line numbers and jump targets

Lines must be numbered in strictly increasing order, and every jump must go to the number of
some line.  The numbers are checked first, so a program with both kinds of fault is refused for
its numbers.  A checker can be used for one program after the other.

Main definitions:

- `StructuralError`: a repeated or misplaced number, or a jump to nowhere.
- `LineChecker`: what a checker remembers between the nodes of a program.
- `LineChecker.check` and `Program.checkNumbering`: the check of a program, by a checker in use
  and by a new one.
-/

namespace LineBasic

/-- What is wrong with the line numbers or the jumps of a program. -/
inductive StructuralError where
  /-- The number was used before. -/
  | duplicateLine (line : Int16)
  /-- The number is less than that of the line before. -/
  | unorderedLine (line previous : Int16)
  /-- A jump to a number that no line has. -/
  | invalidJump (line target : Int16)
  /-- A jump with return to a number that no line has. -/
  | invalidSubroutineJump (line target : Int16)
deriving DecidableEq, Repr

/-- The wording of each error. -/
def StructuralError.message : StructuralError → String
  | duplicateLine line => aboutLine line "Duplicated line number found"
  | unorderedLine line previous =>
    aboutLine line ("Line number not progressive, previous line is " ++ toString previous)
  | invalidJump line target => aboutLine line ("Invalid jump found: " ++ toString target)
  | invalidSubroutineJump line target =>
    aboutLine line ("Invalid subroutine jump found: " ++ toString target)

/-- The line numbers a checker has met, and the line it is at. -/
structure LineChecker where
  known : List Int16 := []
  current : Int16 := 0
deriving DecidableEq, Repr

namespace LineChecker

/-- Actions of a checker. -/
abbrev Check := EStateM StructuralError LineChecker

/-- Remember a line number, which must not be known yet. -/
def learn (number : Int16) : Check Unit := do
  if number ∈ (← get).known then
    throw (.duplicateLine number)
  modify fun c => { c with known := number :: c.known }

/-- The numbers of lines, the line before them having the number `previous` if there is one. -/
def checkNumbers (previous : Option Int16) : List Line → Check Unit
  | [] => pure ()
  | line :: rest => do
    learn line.number
    if let some p := previous then
      if line.number < p then
        throw (.unorderedLine line.number p)
    checkNumbers (some line.number) rest

/-- A jump must go to a known number. -/
def checkTarget (target : Int16) (fault : Int16 → Int16 → StructuralError) : Check Unit := do
  let c ← get
  unless target ∈ c.known do
    throw (fault c.current target)

/-- Checks all numbers before anything else, and then the jumps in order. -/
def visitor : Visitor Check where
  onProgram p children := do
    modify fun c => { c with known := [] }
    checkNumbers none p.lines
    children
  onLine line children := do
    modify fun c => { c with current := line.number }
    children
  onStmt s children :=
    match s with
    | .goto target => checkTarget target .invalidJump
    | .gosub target => checkTarget target .invalidSubroutineJump
    | _ => children

/-- The verdict of a checker on a program, and the checker as it is left behind. -/
def check (c : LineChecker) (program : Program) : Except StructuralError Unit × LineChecker :=
  match (visitor.visitProgram program).run c with
  | .ok _ c' => (.ok (), c')
  | .error e c' => (.error e, c')

/-- The verdicts of one checker on programs taken one after the other. -/
def checkAll (c : LineChecker) : List Program → List (Except StructuralError Unit)
  | [] => []
  | p :: rest => (c.check p).1 :: checkAll (c.check p).2 rest

end LineChecker

/-- The verdict of a new checker on a program. -/
def Program.checkNumbering (program : Program) : Except StructuralError Unit :=
  (LineChecker.check {} program).1

end LineBasic
