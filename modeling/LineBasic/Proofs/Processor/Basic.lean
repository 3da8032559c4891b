import LineBasic.Proofs.Processor.Labels
import LineBasic.Text.Numeral

/-!
# A processor that executes listings

The 8086 as far as programs on numbers need it.  A word is a number or an address, and an address
is kept by what it is the address of, so that nothing depends on how long instructions are.  Each
item of a listing takes one step, labels and comments included.  The routines of the listing are
primitive: printing is observed, and a routine that ends the program takes over for good.

Main definitions:

- `Word`, `Registers`, `Flags` and `Processor`: the state of a processor.
- `Observation`: what can be seen of its work.
- `IsQuotient`: what a signed division can deliver.
- `execInstr?`: the instructions; one that is not defined on its operands cannot be executed.
- `step?`: the execution of one item of a listing.
- `Processor.IsFresh`: a processor as a program is started.
-/

namespace LineBasic.Assembly

/-! ## States -/

/-- What a register, a cell or a place on the stack holds. -/
inductive Word where
  | number (n : Int16)
  /-- The address of an item of the listing. -/
  | code (position : Nat)
  /-- The address of storage. -/
  | data (l : Label)
deriving DecidableEq, Repr

/-- The number that a word is, if it is one. -/
def Word.number? : Word → Option Int16
  | number n => some n
  | _ => none

/-- The contents of the registers. -/
structure Registers where
  ax : Word
  bx : Word
  cx : Word
  dx : Word
  si : Word
  di : Word
deriving DecidableEq, Repr

/-- What a register holds. -/
def Registers.get (rs : Registers) : WordReg → Word
  | .ax => rs.ax
  | .bx => rs.bx
  | .cx => rs.cx
  | .dx => rs.dx
  | .si => rs.si
  | .di => rs.di

/-- Let a register hold a word. -/
def Registers.set (rs : Registers) (r : WordReg) (w : Word) : Registers :=
  match r with
  | .ax => { rs with ax := w }
  | .bx => { rs with bx := w }
  | .cx => { rs with cx := w }
  | .dx => { rs with dx := w }
  | .si => { rs with si := w }
  | .di => { rs with di := w }

/-- The flags; an instruction may leave some of them undefined. -/
structure Flags where
  zero : Option Bool
  sign : Option Bool
  overflow : Option Bool
deriving DecidableEq, Repr

/-- The flags of a signed operation with a given result on all integers. -/
def Flags.ofExact (result : Int) : Flags where
  zero := some (decide (Int16.ofInt result = 0))
  sign := some (decide (Int16.ofInt result < 0))
  overflow := some (decide ((Int16.ofInt result).toInt ≠ result))

/-- Whether a condition holds, if the flags that it asks for are there. -/
def Flags.holds? (f : Flags) : Condition → Option Bool
  | .e => f.zero
  | .ne => f.zero.map not
  | .o => f.overflow
  | .ge | .nl => return (← f.sign) == (← f.overflow)
  | .nge => return (← f.sign) != (← f.overflow)
  | .nle => return !(← f.zero) && (← f.sign) == (← f.overflow)
  | .ng => return (← f.zero) || (← f.sign) != (← f.overflow)
  | .b | .a | .ae | .c => none

/-- Where control is. -/
inductive Control where
  /-- At an item of the listing. -/
  | running (position : Nat)
  /-- With a routine that ends the program. -/
  | handed (r : Routine)
deriving DecidableEq, Repr

/-- A processor with its memory.  Only words of storage are cells, and the stack has no end. -/
structure Processor where
  control : Control
  registers : Registers
  flags : Flags
  cells : Label → Option Word
  stack : List Word

/-- Let a cell hold a word. -/
def setCell (cells : Label → Option Word) (l : Label) (w : Word) : Label → Option Word :=
  fun k => if k = l then some w else cells k

/-- What can be seen of the work of a processor. -/
inductive Observation where
  /-- The code of a line begins. -/
  | line (number : Int16)
  /-- A number is printed. -/
  | number (n : Int16)
  /-- A text is printed. -/
  | text (content : String)
  /-- A line of output ends. -/
  | newLine
deriving DecidableEq, Repr

/-- What one step leads to. -/
abbrev Outcome := List Observation × Processor

/-! ## Operands -/

/-- The value of a number in a listing. -/
def Numeral.value : Numeral → Int
  | decimal n => n
  | hex _ n => n
  | char c => c.toNat

namespace Processor

variable (p : Processor)

/-- The word of an operand, if it is one of sixteen bits. -/
def read? : Operand → Option Word
  | .wordReg r => some (p.registers.get r)
  | .constant _ n => some (.number (Int16.ofInt n.value))
  | .address l => some (.data l)
  | .memory (some .byte) _ => none
  | .memory _ (.label l) => p.cells l
  | _ => none

/-- The number that an operand is. -/
def readNumber? (src : Operand) : Option Int16 :=
  (p.read? src).bind Word.number?

/-- Let an operand hold a word; only registers and cells can. -/
def write? (dst : Operand) (w : Word) : Option Processor :=
  match dst with
  | .wordReg r => some { p with registers := p.registers.set r w }
  | .memory (some .byte) _ => none
  | .memory _ (.label l) =>
    (p.cells l).map fun _ => { p with cells := setCell p.cells l w }
  | _ => none

/-- Go on at an item of the listing. -/
def goTo (q : Nat) : Processor :=
  { p with control := .running q }

/-- Put a word on the stack. -/
def push (w : Word) : Processor :=
  { p with stack := w :: p.stack }

end Processor

/-! ## Routines -/

/-- Whether a routine ends the program. -/
def Routine.isFinal : Routine → Bool
  | terminateProgram | divisionByZero | arithmeticOverflow | pcOutOfRange => true
  | _ => false

/-- The text that an item stores at a label. -/
def Item.textAt? (l : Label) : Item → Option String
  | storage k (.text content) => if k = l then some content else none
  | _ => none

/-- The text that is stored at a label. -/
def textAt? (listing : List Item) (l : Label) : Option String :=
  listing.findSome? (Item.textAt? l)

/-- What can be seen of a routine that prints. -/
def visible? (listing : List Item) (p : Processor) : Routine → Option (List Observation)
  | .printNumber => p.registers.dx.number?.map fun n => [.number n]
  | .printString =>
    match p.registers.dx with
    | .data l => (textAt? listing l).map fun content => [.text content]
    | _ => none
  | .newLine => some [.newLine]
  | _ => none

/-! ## Instructions -/

/-- Control behind a jump at `q` to a label. -/
def jumpTarget? (listing : List Item) (q : Nat) : Label → Option Control
  | .routine r => if r.isFinal then some (.handed r) else none
  | l => (resolve? listing q l).map .running

/-- The quotients of signed divisions by a word.  The least number is none of them: the 8086 has the
interrupt of a division by zero for it, as for those that do not fit into a word. -/
def IsQuotient (x : Int) : Prop :=
  -32767 ≤ x ∧ x ≤ 32767

instance (x : Int) : Decidable (IsQuotient x) :=
  inferInstanceAs (Decidable (_ ∧ _))

/-- The execution of an instruction at `q`. -/
def execInstr? (listing : List Item) (q : Nat) (p : Processor) : Instr → Option Outcome
  | .mov dst src => do
    let p' ← p.write? dst (← p.read? src)
    return ([], p'.goTo (q + 1))
  | .add dst src => do
    let result := (← p.readNumber? dst).toInt + (← p.readNumber? src).toInt
    let p' ← { p with flags := .ofExact result }.write? dst (.number (.ofInt result))
    return ([], p'.goTo (q + 1))
  | .sub dst src => do
    let result := (← p.readNumber? dst).toInt - (← p.readNumber? src).toInt
    let p' ← { p with flags := .ofExact result }.write? dst (.number (.ofInt result))
    return ([], p'.goTo (q + 1))
  | .cmp lhs rhs => do
    let result := (← p.readNumber? lhs).toInt - (← p.readNumber? rhs).toInt
    return ([], { p with flags := .ofExact result }.goTo (q + 1))
  | .imul src => do
    -- the product fills two registers, and overflows if the lower one does not tell it
    let result := (← p.registers.ax.number?).toInt * (← p.readNumber? src).toInt
    let low := Int16.ofInt result
    let registers := { p.registers with
      ax := .number low
      dx := .number (.ofInt (result / 65536)) }
    let flags := ⟨none, none, some (decide (low.toInt ≠ result))⟩
    return ([], { p with registers, flags }.goTo (q + 1))
  | .idiv src => do
    let low ← p.registers.ax.number?
    let high ← p.registers.dx.number?
    let divisor := (← p.readNumber? src).toInt
    let dividend := high.toInt * 65536 + low.toInt % 65536
    -- the processor traps if there is no quotient that it delivers
    if divisor = 0 ∨ ¬ IsQuotient (dividend.tdiv divisor) then
      none
    else
      let registers := { p.registers with
        ax := .number (.ofInt (dividend.tdiv divisor))
        dx := .number (.ofInt (dividend.tmod divisor)) }
      return ([], { p with registers, flags := ⟨none, none, none⟩ }.goTo (q + 1))
  | .cwd => do
    let low ← p.registers.ax.number?
    let registers := { p.registers with dx := .number (if low < 0 then -1 else 0) }
    return ([], { p with registers }.goTo (q + 1))
  | .push src => do
    let w ← p.read? src
    return ([], (p.push w).goTo (q + 1))
  | .pop dst =>
    match p.stack with
    | [] => none
    | w :: rest => do
      let p' ← { p with stack := rest }.write? dst w
      return ([], p'.goTo (q + 1))
  | .jmp l => do
    let control ← jumpTarget? listing q l
    return ([], { p with control })
  | .jump cond l => do
    if ← p.flags.holds? cond then
      let control ← jumpTarget? listing q l
      return ([], { p with control })
    else
      return ([], p.goTo (q + 1))
  | .call (.routine r) =>
    if r.isFinal then
      some ([], { p.push (.code (q + 1)) with control := .handed r })
    else do
      -- the routines that print come back and leave all registers as they were
      let seen ← visible? listing p r
      return (seen, p.goTo (q + 1))
  | .call l => do
    let target ← resolve? listing q l
    return ([], (p.push (.code (q + 1))).goTo target)
  | .ret =>
    match p.stack with
    | .code target :: rest => some ([], { p with stack := rest }.goTo target)
    | _ => none
  | .cld => some ([], p.goTo (q + 1))
  | _ => none

/-! ## Steps -/

/-- The execution of the item that control is at; storage cannot be executed. -/
def step? (listing : List Item) (p : Processor) : Option Outcome :=
  match p.control with
  | .handed _ => none
  | .running q =>
    match listing[q]? with
    | some (.instr i) => execInstr? listing q p i
    | some (.noted i _) => execInstr? listing q p i
    | some (.label (.line number)) => some ([.line number], p.goTo (q + 1))
    | some (.label _) => some ([], p.goTo (q + 1))
    | some .blank => some ([], p.goTo (q + 1))
    | some (.comment _) => some ([], p.goTo (q + 1))
    | some (.directive _) => some ([], p.goTo (q + 1))
    | some (.storage ..) => none
    | none => none

/-- The words that a listing stores. -/
def wordCells (listing : List Item) (l : Label) : Option Word :=
  if .storage l .zeroWord ∈ listing then some (.number 0) else none

/-- A processor as a program is started: at the first item of the listing, with the words that
the listing stores, and with nothing on the stack. -/
structure Processor.IsFresh (listing : List Item) (p : Processor) : Prop where
  control_eq : p.control = .running 0
  cells_eq : p.cells = wordCells listing
  stack_eq : p.stack = []

/-- A processor as a program is started, with zeros in its registers. -/
def Processor.fresh (listing : List Item) : Processor where
  control := .running 0
  registers := ⟨.number 0, .number 0, .number 0, .number 0, .number 0, .number 0⟩
  flags := ⟨none, none, none⟩
  cells := wordCells listing
  stack := []

/-- There is a processor as a program is started. -/
theorem Processor.isFresh_fresh (listing : List Item) : (fresh listing).IsFresh listing :=
  ⟨rfl, rfl, rfl⟩

end LineBasic.Assembly
