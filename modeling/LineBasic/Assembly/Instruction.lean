/-!
# Assembly language

The part of the 8086's assembly language that generated programs use.  Labels are kept by what
they stand for, so that two of them are spelled alike only if they are the same; a label with a
leading dot belongs to the nearest label before it without one.

Main definitions:

- `Label`: the names of lines, variables, constants and routines.
- `Operand`: registers, numbers, addresses and the contents of memory.
- `Instr`: the instructions.
- `Label.render`, `Operand.render`, `Instr.render`: their spelling.
-/

namespace LineBasic.Assembly

/-! ## Labels -/

/-- The routines every generated program ends with. -/
inductive Routine where
  | readString | newLine | stringToNumber | printNumber | printString
  | terminateProgram | divisionByZero | arithmeticOverflow | pcOutOfRange | runtimeError
deriving DecidableEq, Repr

/-- The name of a routine. -/
def Routine.spelling : Routine → String
  | readString => "READ_STRING"
  | newLine => "NEW_LINE"
  | stringToNumber => "STRING_TO_NUMBER"
  | printNumber => "PRINT_NUMBER"
  | printString => "PRINT_STRING"
  | terminateProgram => "TERMINATE_PROGRAM"
  | divisionByZero => "DIVISION_BY_ZERO"
  | arithmeticOverflow => "ARITHMETIC_OVERFLOW"
  | pcOutOfRange => "PC_OUT_OF_RANGE"
  | runtimeError => "RUNTIME_ERROR"

/-- Places inside a line or a routine. -/
inductive Spot where
  /-- The end of a line. -/
  | lineEnd
  /-- The start of a request for a number. -/
  | readNumber
  /-- The division with a given count, its operands found good. -/
  | division (count : Nat)
  | nextChar | backspace | done
  | skipLeading | checkPlus | digit | endDigits | skipTrailing | checkEnd
  | positive | store | fail
  | divide | printDigit
deriving DecidableEq, Repr

/-- The name of a place, its dot left out. -/
def Spot.spelling : Spot → String
  | lineEnd => "Line_end"
  | readNumber => "read_number"
  | division count => "Div_" ++ toString count
  | nextChar => "next_char"
  | backspace => "backspace"
  | done => "done"
  | skipLeading => "skip_leading"
  | checkPlus => "check_plus"
  | digit => "digit"
  | endDigits => "end_digits"
  | skipTrailing => "skip_trailing"
  | checkEnd => "check_end"
  | positive => "positive"
  | store => "store"
  | fail => "fail"
  | divide => "divide"
  | printDigit => "print_digit"

/-- What an address of a generated program can be called by. -/
inductive Label where
  /-- The code of a line. -/
  | line (number : Int16)
  /-- The storage of a variable. -/
  | var (name : String)
  /-- A text of the program, by its index among all of them. -/
  | literal (index : Nat)
  /-- Storage for a line that is to be read as a number. -/
  | scratch
  /-- A routine. -/
  | routine (r : Routine)
  /-- The text that a routine shows before it ends the program. -/
  | message (r : Routine)
  /-- A place that belongs to the label before it. -/
  | inner (s : Spot)
deriving DecidableEq, Repr

/-- The spelling of a label. -/
def Label.render : Label → String
  | line number => "Line_" ++ toString number
  | var name => "Var_" ++ name
  | literal index => "Pool_" ++ toString index
  | scratch => "STRING_BUFFER"
  | routine r => r.spelling
  | message r => r.spelling ++ "_MESSAGE"
  | inner s => "." ++ s.spelling

/-! ## Operands -/

/-- The registers of sixteen bits. -/
inductive WordReg where
  | ax | bx | cx | dx | si | di
deriving DecidableEq, Repr

/-- The registers of eight bits. -/
inductive ByteReg where
  | al | ah | cl | ch | dl
deriving DecidableEq, Repr

/-- The name of a register. -/
def WordReg.spelling : WordReg → String
  | ax => "ax"
  | bx => "bx"
  | cx => "cx"
  | dx => "dx"
  | si => "si"
  | di => "di"

/-- The name of a register. -/
def ByteReg.spelling : ByteReg → String
  | al => "al"
  | ah => "ah"
  | cl => "cl"
  | ch => "ch"
  | dl => "dl"

/-- The sizes of what an instruction moves. -/
inductive Width where
  | byte | word
deriving DecidableEq, Repr

/-- The name of a size. -/
def Width.spelling : Width → String
  | byte => "byte"
  | word => "word"

/-- A number and the way it is written. -/
inductive Numeral where
  /-- In decimal. -/
  | decimal (n : Int)
  /-- In a fixed count of hexadecimal digits. -/
  | hex (digits n : Nat)
  /-- As the character it encodes. -/
  | char (c : Char)
deriving DecidableEq, Repr

/-- A digit below sixteen. -/
def hexDigit (n : Nat) : Char :=
  if n < 10 then Char.ofNat ('0'.toNat + n) else Char.ofNat ('A'.toNat + (n - 10))

/-- The last `digits` hexadecimal digits of a number. -/
def hexDigits : Nat → Nat → List Char
  | 0, _ => []
  | digits + 1, n => hexDigits digits (n / 16) ++ [hexDigit (n % 16)]

/-- The spelling of a number; hexadecimal ones are marked at their end. -/
def Numeral.render : Numeral → String
  | decimal n => toString n
  | hex digits n => String.ofList (hexDigits digits n) ++ "h"
  | char c => "'" ++ String.singleton c ++ "'"

/-- Where in memory an operand is. -/
inductive Place where
  | label (l : Label)
  | di
  | bxPlusDi
deriving DecidableEq, Repr

/-- The spelling of a place, its brackets left out. -/
def Place.render : Place → String
  | label l => l.render
  | di => "di"
  | bxPlusDi => "bx+di"

/-- What an instruction works on.  A width is given where no register tells it. -/
inductive Operand where
  | wordReg (r : WordReg)
  | byteReg (r : ByteReg)
  | constant (width : Option Width) (n : Numeral)
  /-- The address that a label stands for. -/
  | address (l : Label)
  /-- What is stored at a place. -/
  | memory (width : Option Width) (p : Place)
deriving DecidableEq, Repr

/-- What stands before an operand to tell its width. -/
def renderWidth : Option Width → String
  | some w => w.spelling ++ " "
  | none => ""

/-- The spelling of an operand. -/
def Operand.render : Operand → String
  | wordReg r => r.spelling
  | byteReg r => r.spelling
  | constant width n => renderWidth width ++ n.render
  | address l => l.render
  | memory width p => renderWidth width ++ "[" ++ p.render ++ "]"

namespace Operand

abbrev ax : Operand := .wordReg .ax
abbrev bx : Operand := .wordReg .bx
abbrev cx : Operand := .wordReg .cx
abbrev dx : Operand := .wordReg .dx
abbrev si : Operand := .wordReg .si
abbrev di : Operand := .wordReg .di
abbrev al : Operand := .byteReg .al
abbrev ah : Operand := .byteReg .ah
abbrev cl : Operand := .byteReg .cl
abbrev ch : Operand := .byteReg .ch
abbrev dl : Operand := .byteReg .dl

/-- A number in decimal. -/
abbrev dec (n : Int) : Operand := .constant none (.decimal n)

/-- A byte in hexadecimal. -/
abbrev hex2 (n : Nat) : Operand := .constant none (.hex 2 n)

/-- A word in hexadecimal. -/
abbrev hex4 (n : Nat) : Operand := .constant none (.hex 4 n)

/-- A character's code. -/
abbrev chr (c : Char) : Operand := .constant none (.char c)

/-- What is stored at a label. -/
abbrev cell (l : Label) : Operand := .memory none (.label l)

end Operand

/-! ## Instructions -/

/-- The conditions under which a jump is taken, one for each spelling. -/
inductive Condition where
  | e | ne | nl | nle | ng | nge | ge | o | b | a | ae | c
deriving DecidableEq, Repr

/-- The spelling of a conditional jump. -/
def Condition.mnemonic : Condition → String
  | e => "je"
  | ne => "jne"
  | nl => "jnl"
  | nle => "jnle"
  | ng => "jng"
  | nge => "jnge"
  | ge => "jge"
  | o => "jo"
  | b => "jb"
  | a => "ja"
  | ae => "jae"
  | c => "jc"

/-- The instructions. -/
inductive Instr where
  | mov (dst src : Operand)
  | add (dst src : Operand)
  | sub (dst src : Operand)
  | cmp (lhs rhs : Operand)
  | xor (dst src : Operand)
  | xchg (lhs rhs : Operand)
  | push (src : Operand)
  | pop (dst : Operand)
  | inc (dst : Operand)
  | dec (dst : Operand)
  | neg (dst : Operand)
  | mul (src : Operand)
  | imul (src : Operand)
  | div (src : Operand)
  | idiv (src : Operand)
  | cwd
  | cld
  | lodsb
  | repMovsb
  | repStosb
  | int (n : Numeral)
  | jmp (l : Label)
  | jump (cond : Condition) (l : Label)
  | loop (l : Label)
  | call (l : Label)
  | ret
deriving DecidableEq, Repr

namespace Instr

/-- An instruction with two operands. -/
def binary (mnemonic : String) (dst src : Operand) : String :=
  mnemonic ++ " " ++ dst.render ++ "," ++ src.render

/-- An instruction with one operand. -/
def unary (mnemonic : String) (operand : Operand) : String :=
  mnemonic ++ " " ++ operand.render

/-- The spelling of an instruction. -/
def render : Instr → String
  | mov dst src => binary "mov" dst src
  | add dst src => binary "add" dst src
  | sub dst src => binary "sub" dst src
  | cmp lhs rhs => binary "cmp" lhs rhs
  | xor dst src => binary "xor" dst src
  | xchg lhs rhs => binary "xchg" lhs rhs
  | push src => unary "push" src
  | pop dst => unary "pop" dst
  | inc dst => unary "inc" dst
  | dec dst => unary "dec" dst
  | neg dst => unary "neg" dst
  | mul src => unary "mul" src
  | imul src => unary "imul" src
  | div src => unary "div" src
  | idiv src => unary "idiv" src
  | cwd => "cwd"
  | cld => "cld"
  | lodsb => "lodsb"
  | repMovsb => "rep movsb"
  | repStosb => "rep stosb"
  | int n => "int " ++ n.render
  | jmp l => "jmp " ++ l.render
  | jump cond l => cond.mnemonic ++ " " ++ l.render
  | loop l => "loop " ++ l.render
  | call l => "call " ++ l.render
  | ret => "ret"

end Instr

end LineBasic.Assembly
