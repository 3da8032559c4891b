import LineBasic.Command.Arguments
import LineBasic.Command.FileTree
import LineBasic.Toolchain

/-!
# Sessions

A session carries out what an invocation asks for, on whatever holds the files and the streams.
An action stops at the first step that fails and reports it; a destination is written only when
all other steps have succeeded.

Main definitions:

- `Host`: what a session needs from its surroundings.
- `perform`: an action, and the failure that stopped it if one did.
- `session`: a whole invocation and its exit code.
- `World`: files and streams as plain values, and `World.host`, a session on them.
-/

namespace LineBasic.Command

open Machine

/-! ## What a session needs -/

/-- Files, output, and the running of programs. -/
structure Host (m : Type → Type) where
  /-- The content of a file. -/
  read : String → m (Except FileError (List UInt8))
  /-- A new content for a file. -/
  write : String → List UInt8 → m (Except FileError Unit)
  /-- Text for the standard output. -/
  print : String → m Unit
  /-- Text for the standard error. -/
  complain : String → m Unit
  /-- A program run on the standard input and output. -/
  play : Checked → m (Except RuntimeError Bool)

/-- Why an action failed. -/
inductive Failure where
  | cannotRead (path : String) (e : FileError)
  | cannotWrite (path : String) (e : FileError)
  /-- The number of files is not two. -/
  | fileCount
  | source (e : SourceError)
  | runtime (e : RuntimeError)
deriving DecidableEq, Repr

/-- An error and, where it has one, its cause once more behind it. -/
def describeRuntime : RuntimeError → String
  | .stream e => RuntimeError.message (.stream e) ++ ": " ++ e.message
  | e => e.message

/-- The wording of each failure. -/
def Failure.message : Failure → String
  | cannotRead path e => "cannot read " ++ path ++ ": " ++ e.message
  | cannotWrite path e => "cannot write " ++ path ++ ": " ++ e.message
  | fileCount => "-n expects a source and a destination file"
  | source e => e.message
  | runtime e => describeRuntime e

/-- A failure as it is reported. -/
def Failure.report (f : Failure) : String :=
  "[*ERROR*] " ++ f.message ++ "\n"

/-! ## Actions -/

variable {m : Type → Type} [Monad m]

/-- The text of a source file. -/
def readSource (host : Host m) (path : String) : ExceptT Failure m String := do
  match ← host.read path with
  | .error e => throw (.cannotRead path e)
  | .ok bytes =>
    match decode? bytes with
    | some text => return text
    | none => throw (.cannotRead path .invalidText)

/-- The result of a check, or the failure that it reports. -/
def accept {α : Type} : Except SourceError α → ExceptT Failure m α
  | .ok a => return a
  | .error e => throw (.source e)

/-- An action, up to the first step that fails. -/
def perform (host : Host m) : Action → ExceptT Failure m Unit
  | .outline path => do
    let source ← readSource host path
    host.print (← accept (outline source))
  | .interpret path => do
    let source ← readSource host path
    let checked ← accept (check source)
    match ← host.play checked with
    | .ok _ => return
    | .error e => throw (.runtime e)
  | .assemble [src, dst] => do
    let source ← readSource host src
    let text ← accept (assemblyText source)
    match ← host.write dst (encode text) with
    | .ok _ => return
    | .error e => throw (.cannotWrite dst e)
  | .assemble _ => throw .fileCount

/-! ## Invocations -/

/-- What the version request prints. -/
def versionText : String := "tiny 0.1.0\n"

/-- What the help request prints, and what a request that cannot be understood gets. -/
def usageText : String :=
  "Compiler and interpreter for TINY programs\n\n" ++
  "Usage: tiny [OPTIONS] <-t <SRC>|-i <SRC>|-n <SRC> <DST>>\n\n" ++
  "Options:\n" ++
  "  -t <SRC>          Display the syntax tree on stdout\n" ++
  "  -i <SRC>          Execute the program with the interpreter\n" ++
  "  -n <SRC> <DST>    Translate the program into NASM source\n" ++
  "  -v, --verbose...  Log pipeline stages to stderr (-v debug, -vv trace)\n" ++
  "  -h, --help        Print help\n" ++
  "  -V, --version     Print version\n"

/-- A whole invocation, with any parser of arguments; gives its exit code. -/
def session (host : Host m) (parse : List String → Option Request) (args : List String) :
    m UInt32 := do
  match parse args with
  | none =>
    host.complain usageText
    return 2
  | some .help =>
    host.print usageText
    return 0
  | some .version =>
    host.print versionText
    return 0
  | some (.action a) =>
    match ← (perform host a).run with
    | .ok _ => return 0
    | .error f =>
      host.complain f.report
      return 1

/-! ## Files and streams as values -/

/-- Files, the input that is left, and what has been printed. -/
structure World where
  tree : FileTree := {}
  stdin : List UInt8 := []
  stdout : List UInt8 := []
  stderr : List UInt8 := []
deriving DecidableEq, Repr

namespace World

/-- Read a file. -/
def readFile (path : String) : StateM World (Except FileError (List UInt8)) := do
  return (← get).tree.read path

/-- Write a file. -/
def writeFile (path : String) (content : List UInt8) :
    StateM World (Except FileError Unit) := do
  match (← get).tree.write path content with
  | .ok tree =>
    modify fun w => { w with tree }
    return .ok ()
  | .error e => return .error e

/-- Run a program on the input that is left. -/
def playProgram (checked : Checked) : StateM World (Except RuntimeError Bool) := do
  let start := State.start checked.scope (← get).stdin none
  let finish (s : State) : StateM World Unit :=
    modify fun w =>
      { w with stdin := s.input.flatten, stdout := w.stdout ++ s.output.written.toList }
  match (run checked.program checked.scope).run start with
  | .ok ended s =>
    finish s
    return .ok ended
  | .error e s =>
    finish s
    return .error e

/-- A session on plain values. -/
def host : Host (StateM World) where
  read := readFile
  write := writeFile
  print text := modify fun w => { w with stdout := w.stdout ++ encode text }
  complain text := modify fun w => { w with stderr := w.stderr ++ encode text }
  play := playProgram

/-- The exit code of an invocation, and the world it leaves behind. -/
def invokeWith (parse : List String → Option Request) (world : World) (args : List String) :
    UInt32 × World :=
  (session host parse args).run world

/-- An invocation whose arguments `parseArguments` reads. -/
def invoke (world : World) (args : List String) : UInt32 × World :=
  world.invokeWith parseArguments args

end World

end LineBasic.Command
