import LineBasic.Assembly.Instruction

/-!
# Assembly listings

A listing is a list of items, one for each line of its text: instructions, labels, storage,
comments and blank lines.

Main definitions:

- `Item`: a line of a listing.
- `code`: the items of instructions.
- `renderChars` and `render`: the text of a listing.
-/

namespace LineBasic.Assembly

/-- What is stored at a label when a program starts. -/
inductive Storage where
  /-- A word that is zero. -/
  | zeroWord
  /-- Bytes that are zero. -/
  | zeroBytes (count : Nat)
  /-- The bytes of a text and a zero behind them. -/
  | text (content : String)
deriving DecidableEq, Repr

/-- The spelling of storage. -/
def Storage.render : Storage → String
  | zeroWord => "DW 0000h"
  | zeroBytes count => "TIMES " ++ toString count ++ " DB 00h"
  | text content => "DB \"" ++ content ++ "\",00h"

/-- The statements to the assembler. -/
inductive Directive where
  /-- The code is for a processor with registers of this many bits. -/
  | bits (n : Nat)
  /-- The code is loaded at this address. -/
  | origin (n : Numeral)
deriving DecidableEq, Repr

/-- The spelling of a directive. -/
def Directive.render : Directive → String
  | bits n => "bits " ++ toString n
  | origin n => "org " ++ n.render

/-- A line of a listing. -/
inductive Item where
  | blank
  | comment (text : String)
  | directive (d : Directive)
  | label (l : Label)
  | instr (i : Instr)
  /-- An instruction with a note behind it. -/
  | noted (i : Instr) (note : String)
  | storage (l : Label) (s : Storage)
deriving DecidableEq, Repr

/-- Tabs that lead from the end of an instruction to the column of its note, which is three tab
stops behind the column where instructions begin. -/
def noteGap (text : String) : String :=
  String.ofList (List.replicate ((24 - text.length + 7) / 8) '\t')

/-- The text of an item, its line feed left out. -/
def Item.render : Item → String
  | blank => ""
  | comment text => "; " ++ text
  | directive d => "\t" ++ d.render
  | label l => l.render ++ ":"
  | instr i => "\t" ++ i.render
  | noted i note => "\t" ++ i.render ++ noteGap i.render ++ "; " ++ note
  | storage l s => l.render ++ ": " ++ s.render

/-- The items of instructions. -/
def code (instructions : List Instr) : List Item :=
  instructions.map .instr

/-- The characters of a listing, each item on a line. -/
def renderChars (listing : List Item) : List Char :=
  listing.flatMap fun i => i.render.toList ++ ['\n']

/-- The text of a listing. -/
def render (listing : List Item) : String :=
  String.ofList (renderChars listing)

@[simp] theorem toList_render (listing : List Item) :
    (render listing).toList = renderChars listing := by
  simp [render]

/-- The text of two listings is that of one behind the other. -/
theorem renderChars_append (xs ys : List Item) :
    renderChars (xs ++ ys) = renderChars xs ++ renderChars ys :=
  List.flatMap_append

end LineBasic.Assembly
