import LineBasic.Machine.Console
import LineBasic.Machine.Store

/-!
# Running a program

A machine executes a program line by line.  It moves on to the following line before it executes
a statement, so that a jump overrides the move, a jump with return remembers it, and a run that
was stopped by an error resumes behind the failing line.

Main definitions:

- `RuntimeError`: why a run stops before the program ends.
- `State`: the store, the place in the program, the returns, and both streams.
- `exec`: the execution of one statement.
- `step` and `run`: the execution of one line, and of lines until the program ends.
-/

namespace LineBasic.Machine

/-- Why a run stops before the program ends. -/
inductive RuntimeError where
  /-- There is no line to execute; the last one executed, if any, is named. -/
  | pcOutOfRange (line : Option Int16)
  /-- A statement on a line failed. -/
  | onLine (line : Int16) (fault : Fault)
  /-- A stream failed. -/
  | stream (e : StreamError)
deriving DecidableEq, Repr

/-- The wording of each error. -/
def RuntimeError.message : RuntimeError → String
  | pcOutOfRange (some line) => aboutLine line "PC out of range"
  | pcOutOfRange none => "[Line -] PC out of range"
  | onLine line fault => aboutLine line fault.message
  | stream e => "I/O error: " ++ e.message

/-- The state of a machine. -/
structure State where
  /-- What the variables hold. -/
  store : Store
  /-- The index of the line to execute next; nothing once the program has ended. -/
  next : Option Nat := some 0
  /-- The indices of the lines to come back to, the latest first. -/
  returns : List Nat := []
  /-- The number of the line that was executed last. -/
  line : Option Int16 := none
  /-- The lines of input that are not read yet. -/
  input : List (List UInt8) := []
  /-- What has been printed. -/
  output : Output := {}
deriving DecidableEq, Repr

/-- The state before the first line, every variable of the scope having its initial value. -/
def State.start (scope : Scope) (input : List UInt8) (room : Option Nat) : State where
  store := .ofSymbols scope.symbols
  input := inputLines input
  output := { room }

/-- What a variable holds. -/
def State.get? (s : State) (name : String) : Option Value :=
  s.store.get? name

/-- Actions of a machine; a failed action keeps the state it failed in. -/
abbrev Run := EStateM RuntimeError State

/-! ## Statements -/

/-- Fail on the current line. -/
def fail {α : Type} (fault : Fault) : Run α := do
  throw (.onLine ((← get).line.getD 0) fault)

/-- The result of an evaluation, or a failure on the current line. -/
def demand {α : Type} : Except Fault α → Run α
  | .ok v => pure v
  | .error fault => fail fault

/-- Change the store. -/
def updateStore (f : Store → Store) : Run Unit :=
  modify fun s => { s with store := f s.store }

/-- Take a value from the input. -/
def receive {α : Type} (read : List (List UInt8) → Except ReadError α × List (List UInt8)) :
    Run α := do
  let (answer, rest) := read (← get).input
  modify fun s => { s with input := rest }
  match answer with
  | .ok v => return v
  | .error .endOfInput => fail .endOfInput
  | .error .invalidText => throw (.stream .invalidText)

/-- Print a text. -/
def emit (text : String) : Run Unit := do
  let (complete, output) := (← get).output.write text
  modify fun s => { s with output }
  unless complete do
    throw (.stream .full)

/-- The value that a line of input gives to a variable: a text or a number, as the variable's
type asks. -/
def receiveFor (scope : Scope) (name : String) : Run Value := do
  if scope.typeOf? name = some .string then
    return .text (← receive readText)
  else
    return .integer (← receive readNumber)

/-- The index of the first line with a number. -/
def findLine? (program : Program) (number : Int16) : Option Nat :=
  program.lines.findIdx? fun line => line.number == number

/-- The execution of a statement.  A jump to a number that no line has is no jump. -/
def exec (program : Program) (scope : Scope) : Stmt → Run Unit
  | .declare type names =>
    updateStore fun store => names.foldl (fun st x => st.reset x type.symbolType) store
  | .assign name value => do
    let v ← demand (eval (← get).store value)
    updateStore (·.put name v)
  | .input name => do
    let v ← receiveFor scope name
    updateStore (·.put name v)
  | .print items => do
    let text ← demand (evalItems (← get).store items)
    emit (text ++ "\n")
  | .cond lhs op rhs body => do
    let l ← demand (evalNumber (← get).store lhs)
    let r ← demand (evalNumber (← get).store rhs)
    if op.holds (compare l r) then
      exec program scope body
  | .goto target =>
    match findLine? program target with
    | some i => modify fun s => { s with next := some i }
    | none => pure ()
  | .gosub target =>
    match findLine? program target with
    | some i => modify fun s => { s with next := some i, returns := s.next.toList ++ s.returns }
    | none => pure ()
  | .ret => do
    match (← get).returns with
    | i :: rest => modify fun s => { s with next := some i, returns := rest }
    | [] => fail .emptyStack
  | .stop => modify fun s => { s with next := none }

/-! ## Lines and runs -/

/-- The execution of the line with an index. -/
def step (program : Program) (scope : Scope) (i : Nat) : Run Unit := do
  match program.lines[i]? with
  | none => throw (.pcOutOfRange (← get).line)
  | some line =>
    modify fun s => { s with line := some line.number, next := some (i + 1) }
    exec program scope line.stmt

/-- The execution of at most `n` lines; says whether the program has ended. -/
def runFor (program : Program) (scope : Scope) : Nat → Run Bool
  | 0 => return (← get).next.isNone
  | n + 1 => do
    match (← get).next with
    | none => return true
    | some i =>
      step program scope i
      runFor program scope n

/-- More lines than any run executes in the lifetime of a machine. -/
def lineLimit : Nat := Nat.pow 2 62

/-- The execution of lines until the program ends. -/
def run (program : Program) (scope : Scope) : Run Bool :=
  runFor program scope lineLimit

/-- The outcomes of `n` runs, each going on where the one before stopped, and the state they
leave. -/
def runTimes (program : Program) (scope : Scope) :
    Nat → State → List (Except RuntimeError Bool) × State
  | 0, s => ([], s)
  | n + 1, s =>
    match (run program scope).run s with
    | .ok ended s' =>
      let (later, final) := runTimes program scope n s'
      (.ok ended :: later, final)
    | .error e s' =>
      let (later, final) := runTimes program scope n s'
      (.error e :: later, final)

end LineBasic.Machine
