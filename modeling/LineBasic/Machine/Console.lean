import LineBasic.Machine.Value

/-!
# Input and output of a running program

Input is a sequence of bytes that is read line by line.  A line ends behind its line feed, and
the last one may lack it.  Output is a sequence of bytes that may have a limit to what it takes.

Main definitions:

- `inputLines`: the lines of an input.
- `readText` and `readNumber`: the next line, and the next line that is a number.
- `Output.write`: as much of a text as still fits.
-/

namespace LineBasic.Machine

/-! ## Bytes and texts -/

/-- The UTF-8 encoding of a text. -/
def encode (text : String) : List UInt8 :=
  text.toList.flatMap String.utf8EncodeChar

/-- The text that bytes encode, if they do. -/
def decode? (bytes : List UInt8) : Option String :=
  String.fromUTF8? ⟨bytes.toArray⟩

/-! ## Input -/

/-- The byte that ends a line. -/
def lineFeed : UInt8 := 10

/-- A byte before the lines that follow it; it opens a line of its own if it ends one. -/
def consByte (b : UInt8) : List (List UInt8) → List (List UInt8)
  | [] => [[b]]
  | line :: rest => if b = lineFeed then [b] :: line :: rest else (b :: line) :: rest

/-- The lines of an input, each with the line feed that ends it. -/
def inputLines (bytes : List UInt8) : List (List UInt8) :=
  bytes.foldr consByte []

/-- A line without its line feed, and without the carriage return before the line feed. -/
def stripLineEnd (line : String) : String :=
  match line.toList.reverse with
  | '\n' :: '\r' :: rest => String.ofList rest.reverse
  | '\n' :: rest => String.ofList rest.reverse
  | _ => line

/-- What can go wrong with a stream of bytes. -/
inductive StreamError where
  /-- A line of input is no text. -/
  | invalidText
  /-- The output takes no more bytes. -/
  | full
deriving DecidableEq, Repr

/-- The wording of each error. -/
def StreamError.message : StreamError → String
  | invalidText => "stream did not contain valid UTF-8"
  | full => "failed to write whole buffer"

/-- Why no value could be read. -/
inductive ReadError where
  | endOfInput
  | invalidText
deriving DecidableEq, Repr

/-- The next line without its end, and the lines behind it.  A line that is no text is passed
over as well. -/
def readText : List (List UInt8) → Except ReadError String × List (List UInt8)
  | [] => (.error .endOfInput, [])
  | line :: rest =>
    match decode? line with
    | some text => (.ok (stripLineEnd text), rest)
    | none => (.error .invalidText, rest)

/-- The number on the next line that has one, and the lines behind that.  Lines of other text
are passed over. -/
def readNumber : List (List UInt8) → Except ReadError Int16 × List (List UInt8)
  | [] => (.error .endOfInput, [])
  | line :: rest =>
    match decode? line with
    | none => (.error .invalidText, rest)
    | some text =>
      match typedNumber? text with
      | some n => (.ok n, rest)
      | none => readNumber rest

/-! ## Output -/

/-- What has been written, and how much more can be if there is a limit. -/
structure Output where
  written : Array UInt8 := #[]
  room : Option Nat := none
deriving DecidableEq, Repr

/-- As much of a text as there is room for, and whether all of it was written. -/
def Output.write (o : Output) (text : String) : Bool × Output :=
  let bytes := encode text
  match o.room with
  | none => (true, { o with written := o.written ++ bytes })
  | some n =>
    (decide (bytes.length ≤ n),
      { written := o.written ++ bytes.take n, room := some (n - bytes.length) })

end LineBasic.Machine
