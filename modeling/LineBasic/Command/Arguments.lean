/-!
# Command line arguments

An invocation asks for exactly one action: `-t` with a source file, `-i` with a source file, or
`-n` with a source file and a destination.  Each value is either an argument of its own or, as
the only one, joined to the letter.  Letters without values may share an argument.

Main definitions:

- `Action` and `Request`: what an invocation asks for.
- `parseArguments`: the request that arguments make, if they make one.
-/

namespace LineBasic.Command

/-- What can be done with a source file. -/
inductive Action where
  /-- Show the outline of a program. -/
  | outline (source : String)
  /-- Run a program. -/
  | interpret (source : String)
  /-- Write the assembly text of the program in the first file to the second. -/
  | assemble (files : List String)
deriving DecidableEq, Repr

/-- What an invocation asks for. -/
inductive Request where
  | help
  | version
  | action (a : Action)
deriving DecidableEq, Repr

/-- The options that take values. -/
inductive ValueOption where
  | outline | interpret | assemble
deriving DecidableEq, Repr

namespace ValueOption

/-- The number of values an option takes. -/
def arity : ValueOption → Nat
  | outline => 1
  | interpret => 1
  | assemble => 2

/-- The option with a letter. -/
def ofLetter? : Char → Option ValueOption
  | 't' => some outline
  | 'i' => some interpret
  | 'n' => some assemble
  | _ => none

end ValueOption

/-- The values found so far, and the option that takes the next ones. -/
structure Collected where
  outline : List String := []
  interpret : List String := []
  assemble : List String := []
  open? : Option (ValueOption × List String) := none
deriving DecidableEq, Repr

namespace Collected

/-- Give an option its values.  Their number must be right, none may be empty, and only the last
option may be given more than once. -/
def give (c : Collected) (option : ValueOption) (values : List String) : Option Collected :=
  if values.length ≠ option.arity ∨ "" ∈ values then
    none
  else
    match option with
    | .outline => if c.outline = [] then some { c with outline := values } else none
    | .interpret => if c.interpret = [] then some { c with interpret := values } else none
    | .assemble => some { c with assemble := c.assemble ++ values }

/-- Close the option that takes values, if there is one. -/
def settle (c : Collected) : Option Collected :=
  match c.open? with
  | some (option, values) => { c with open? := none }.give option values
  | none => some c

/-- Take an argument that is no option as a value. -/
def addValue (c : Collected) (value : String) : Option Collected :=
  match c.open? with
  | some (option, values) =>
    if values.length < option.arity then
      some { c with open? := some (option, values ++ [value]) }
    else
      none
  | none => none

/-- The action that was asked for, which must be the only one. -/
def action? (c : Collected) : Option Action :=
  match c.outline, c.interpret, c.assemble with
  | [source], [], [] => some (.outline source)
  | [], [source], [] => some (.interpret source)
  | [], [], files => if files = [] then none else some (.assemble files)
  | _, _, _ => none

end Collected

/-- What an argument leads to: a request at once, or more arguments. -/
inductive Progress where
  | done (r : Request)
  | more (c : Collected)
deriving DecidableEq, Repr

/-- A value joined to its letter, with or without an equals sign between them. -/
def joinedValue : List Char → String
  | '=' :: cs => String.ofList cs
  | cs => String.ofList cs

/-- The letters of an argument that begins with a single dash. -/
def takeLetters (c : Collected) : List Char → Option Progress
  | [] => some (.more c)
  | letter :: rest => do
    let c ← c.settle
    match letter with
    | 'v' => takeLetters c rest
    | 'h' => some (.done .help)
    | 'V' => some (.done .version)
    | _ =>
      let option ← ValueOption.ofLetter? letter
      if rest.isEmpty then
        some (.more { c with open? := some (option, []) })
      else
        return .more (← c.give option [joinedValue rest])

/-- The word of an argument that begins with two dashes. -/
def takeWord (c : Collected) (word : String) : Option Progress := do
  let c ← c.settle
  match word with
  | "verbose" => some (.more c)
  | "help" => some (.done .help)
  | "version" => some (.done .version)
  | _ => none

/-- What an argument leads to: letters behind one dash, a word behind two, or a value. -/
def takeArgument (c : Collected) (arg : String) : Option Progress :=
  match arg.toList with
  | '-' :: '-' :: word => takeWord c (String.ofList word)
  | '-' :: first :: letters => takeLetters c (first :: letters)
  | _ => (c.addValue arg).map .more

/-- The request at the end of the arguments. -/
def finish (c : Collected) : Option Request := do
  return .action (← (← c.settle).action?)

/-- The request that arguments make behind those already taken.  Two dashes end the options, and
nothing may follow them. -/
def parseFrom (c : Collected) : List String → Option Request
  | [] => finish c
  | arg :: rest =>
    if arg = "--" then
      if rest.isEmpty then finish c else none
    else
      match takeArgument c arg with
      | none => none
      | some (.done r) => some r
      | some (.more c) => parseFrom c rest

/-- The request that arguments make; nothing if they make none. -/
def parseArguments (args : List String) : Option Request :=
  parseFrom {} args

end LineBasic.Command
