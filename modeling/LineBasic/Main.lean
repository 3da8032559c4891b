import LineBasic.Command.Session

/-!
# The command line program

Sessions on the files and the standard streams of the process.  Input is read one line at a time
and only when the program asks for it, and output appears as soon as it is printed.

Main definitions:

- `processHost`: what a session needs, given by the process.
- `main`: the program.
-/

namespace LineBasic.Command

open Machine

/-- The code under which the system reports that a path is a directory. -/
def directoryCode : UInt32 := 21

/-- The code under which the system reports a name or a path with too many bytes. -/
def nameTooLongCode : UInt32 := 36

/-- Whether a code stands for an error.  Some operations give the codes with the opposite sign. -/
def isErrorCode (code known : UInt32) : Bool :=
  code == known || code == -known

/-- The reason the system gives for an error. -/
def fileError : IO.Error → FileError
  | .noFileOrDirectory .. => .notFound
  | .noSuchThing .. => .notFound
  | .inappropriateType _ code _ =>
    if isErrorCode code directoryCode then .isDirectory else .notDirectory
  | .invalidArgument _ code details =>
    if isErrorCode code nameTooLongCode then .nameTooLong else .other details
  | .permissionDenied .. => .other "Permission denied (os error 13)"
  | e => .other (toString e)

/-- Read a file. -/
def readProcessFile (path : String) : IO (Except FileError (List UInt8)) := do
  try
    return .ok (← IO.FS.readBinFile path).toList
  catch e =>
    return .error (fileError e)

/-- Write a file. -/
def writeProcessFile (path : String) (content : List UInt8) : IO (Except FileError Unit) := do
  try
    IO.FS.writeBinFile path ⟨content.toArray⟩
    return .ok ()
  catch e =>
    return .error (fileError e)

/-- The bytes of the next line of a stream up to its line feed; none at its end. -/
partial def readLineBytes (stream : IO.FS.Stream) (line : ByteArray) : IO ByteArray := do
  let chunk ← stream.read 1
  if chunk.isEmpty then
    return line
  let line := line ++ chunk
  if chunk.toList = [lineFeed] then
    return line
  readLineBytes stream line

/-- Hand over what a program has printed since the last time. -/
def flushOutput (stdout : IO.FS.Stream) (s : State) : IO State := do
  unless s.output.written.isEmpty do
    stdout.write ⟨s.output.written⟩
    stdout.flush
  return { s with output := {} }

/-- Run a program line by line.  A line that runs out of input is executed again with one more
line of input, unless there is none. -/
partial def playProcess (stdin stdout : IO.FS.Stream) (checked : Checked) (s : State) :
    IO (Except RuntimeError Bool) := do
  match s.next with
  | none => return .ok true
  | some i =>
    match (step checked.program checked.scope i).run s with
    | .ok _ s' => playProcess stdin stdout checked (← flushOutput stdout s')
    | .error (.onLine line .endOfInput) _ =>
      let bytes ← readLineBytes stdin .empty
      if bytes.isEmpty then
        return .error (.onLine line .endOfInput)
      playProcess stdin stdout checked { s with input := inputLines bytes.toList }
    | .error e s' =>
      let _ ← flushOutput stdout s'
      return .error e

/-- A session on the files and streams of the process. -/
def processHost : Host IO where
  read := readProcessFile
  write := writeProcessFile
  print text := do
    let stdout ← IO.getStdout
    stdout.putStr text
    stdout.flush
  complain text := do
    (← IO.getStderr).putStr text
  play checked := do
    playProcess (← IO.getStdin) (← IO.getStdout) checked (.start checked.scope [] none)

end LineBasic.Command

/-- The program: its exit code tells whether the request could be carried out. -/
def main (args : List String) : IO UInt32 :=
  LineBasic.Command.session LineBasic.Command.processHost LineBasic.Command.parseArguments args
