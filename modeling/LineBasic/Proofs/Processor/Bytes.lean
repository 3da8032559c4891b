import LineBasic.Proofs.Processor.Basic
import Mathlib.Algebra.Group.Nat.Defs

/-!
# A processor with bytes

The 8086 with registers of sixteen bits and a memory of bytes, as far as the routines of a listing
use it, which are executed instruction by instruction here.  Storage has addresses, while code is
known by its place in the listing and the stack is kept apart from memory.  The services of DOS take
keys and print bytes; there is no step while a key is awaited, and none behind the end of a program.

Main definitions:

- `Computer`: the state of the processor, its place in the listing left out.
- `Layout`: the addresses of labels.
- `Computer.effect?`: what instructions do that go on at the next one.
- `Computer.step?`: the execution of one item of a listing.
-/

namespace LineBasic.Assembly

/-! ## Words and bytes -/

/-- The number of bits of a size. -/
def Width.bits : Width → Nat
  | byte => 8
  | word => 16

/-- The lower half of a word. -/
def lowByte (w : BitVec 16) : BitVec 8 :=
  .ofNat 8 w.toNat

/-- The upper half of a word. -/
def highByte (w : BitVec 16) : BitVec 8 :=
  .ofNat 8 (w.toNat / 256)

/-- The word with a given upper and lower half. -/
def joinBytes (high low : BitVec 8) : BitVec 16 :=
  .ofNat 16 (256 * high.toNat + low.toNat)

@[simp] theorem lowByte_joinBytes (high low : BitVec 8) : lowByte (joinBytes high low) = low := by
  apply BitVec.eq_of_toNat_eq
  simp [lowByte, joinBytes]
  omega

@[simp] theorem highByte_joinBytes (high low : BitVec 8) :
    highByte (joinBytes high low) = high := by
  apply BitVec.eq_of_toNat_eq
  simp [highByte, joinBytes]
  omega

@[simp] theorem joinBytes_highByte_lowByte (w : BitVec 16) :
    joinBytes (highByte w) (lowByte w) = w := by
  apply BitVec.eq_of_toNat_eq
  simp [highByte, lowByte, joinBytes]
  omega

/-! ## States -/

/-- The addresses of labels. -/
abbrev Layout := Label → BitVec 16

/-- The contents of a memory. -/
abbrev Memory := BitVec 16 → BitVec 8

namespace Memory

/-- The byte or word at an address; the lower half of a word comes first. -/
def load (m : Memory) (a : BitVec 16) : (w : Width) → BitVec w.bits
  | .byte => m a
  | .word => joinBytes (m (a + 1)) (m a)

/-- Let a byte be at an address. -/
def put (m : Memory) (a : BitVec 16) (b : BitVec 8) : Memory :=
  fun k => if k = a then b else m k

@[simp] theorem put_self (m : Memory) (a : BitVec 16) (b : BitVec 8) : m.put a b a = b :=
  if_pos rfl

theorem put_of_ne (m : Memory) {a x : BitVec 16} (b : BitVec 8) (h : x ≠ a) : m.put a b x = m x :=
  if_neg h

/-- Let a byte or word be at an address. -/
def store (m : Memory) (a : BitVec 16) : (w : Width) → BitVec w.bits → Memory
  | .byte, b => m.put a b
  | .word, v => (m.put a (lowByte v)).put (a + 1) (highByte v)

/-- Copy a number of bytes, one after the other. -/
def copy (m : Memory) (src dst : BitVec 16) : Nat → Memory
  | 0 => m
  | n + 1 => (m.put dst (m src)).copy (src + 1) (dst + 1) n

/-- Let a number of bytes be the same. -/
def fill (m : Memory) (dst : BitVec 16) (b : BitVec 8) : Nat → Memory
  | 0 => m
  | n + 1 => (m.put dst b).fill (dst + 1) b n

/-- Whether a text is at an address, with a zero behind it. -/
def HoldsText (m : Memory) (a : BitVec 16) : List (BitVec 8) → Prop
  | [] => m a = 0
  | b :: rest => m a = b ∧ b ≠ 0 ∧ m.HoldsText (a + 1) rest

end Memory

namespace Computer

/-- The contents of the registers. -/
structure Registers where
  ax : BitVec 16
  bx : BitVec 16
  cx : BitVec 16
  dx : BitVec 16
  si : BitVec 16
  di : BitVec 16
deriving DecidableEq, Repr

namespace Registers

/-- The word in a register. -/
def get (rs : Registers) : WordReg → BitVec 16
  | .ax => rs.ax
  | .bx => rs.bx
  | .cx => rs.cx
  | .dx => rs.dx
  | .si => rs.si
  | .di => rs.di

/-- Let a word be in a register. -/
def set (rs : Registers) (r : WordReg) (w : BitVec 16) : Registers :=
  match r with
  | .ax => { rs with ax := w }
  | .bx => { rs with bx := w }
  | .cx => { rs with cx := w }
  | .dx => { rs with dx := w }
  | .si => { rs with si := w }
  | .di => { rs with di := w }

/-- The byte in half a register. -/
def getByte (rs : Registers) : ByteReg → BitVec 8
  | .al => lowByte rs.ax
  | .ah => highByte rs.ax
  | .cl => lowByte rs.cx
  | .ch => highByte rs.cx
  | .dl => lowByte rs.dx

/-- Let a byte be in half a register. -/
def setByte (rs : Registers) (r : ByteReg) (b : BitVec 8) : Registers :=
  match r with
  | .al => { rs with ax := joinBytes (highByte rs.ax) b }
  | .ah => { rs with ax := joinBytes b (lowByte rs.ax) }
  | .cl => { rs with cx := joinBytes (highByte rs.cx) b }
  | .ch => { rs with cx := joinBytes b (lowByte rs.cx) }
  | .dl => { rs with dx := joinBytes (highByte rs.dx) b }

end Registers

/-- The flags; an instruction may leave some of them undefined. -/
structure Flags where
  carry : Option Bool
  zero : Option Bool
  sign : Option Bool
  overflow : Option Bool
deriving DecidableEq, Repr

namespace Flags

/-- The flags that a result is known by, and two more. -/
def ofResult {n : Nat} (carry overflow : Bool) (result : BitVec n) : Flags where
  carry := some carry
  zero := some (decide (result = 0))
  sign := some result.msb
  overflow := some overflow

/-- The flags of a sum. -/
def add {n : Nat} (a b : BitVec n) : Flags :=
  ofResult (decide (2 ^ n ≤ a.toNat + b.toNat)) (decide ((a + b).toInt ≠ a.toInt + b.toInt)) (a + b)

/-- The flags of a difference. -/
def sub {n : Nat} (a b : BitVec n) : Flags :=
  ofResult (decide (a.toNat < b.toNat)) (decide ((a - b).toInt ≠ a.toInt - b.toInt)) (a - b)

/-- Whether a condition holds, if the flags that it asks for are there. -/
def holds? (f : Flags) : Condition → Option Bool
  | .e => f.zero
  | .ne => f.zero.map not
  | .o => f.overflow
  | .b | .c => f.carry
  | .ae => f.carry.map not
  | .a => return !(← f.carry) && !(← f.zero)
  | .ge | .nl => return (← f.sign) == (← f.overflow)
  | .nge => return (← f.sign) != (← f.overflow)
  | .nle => return !(← f.zero) && (← f.sign) == (← f.overflow)
  | .ng => return (← f.zero) || (← f.sign) != (← f.overflow)

end Flags

/-- What the stack holds: words, and places of the listing to come back to. -/
inductive Slot where
  | word (w : BitVec 16)
  | place (q : Nat)
deriving DecidableEq, Repr

end Computer

/-- A processor with its memory, the keys that are going to be pressed and what has been printed.
The stack has no end. -/
structure Computer where
  registers : Computer.Registers
  flags : Computer.Flags
  memory : Memory
  stack : List Computer.Slot
  keys : List (BitVec 8)
  printed : List (BitVec 8)

namespace Computer

variable (layout : Layout) (c : Computer)

/-! ## Operands -/

/-- The address of a place. -/
def address : Place → BitVec 16
  | .label l => layout l
  | .di => c.registers.di
  | .bxPlusDi => c.registers.bx + c.registers.di

/-- What an operand is, if it is of a size. -/
def read? : (w : Width) → Operand → Option (BitVec w.bits)
  | .word, .wordReg r => some (c.registers.get r)
  | .byte, .byteReg r => some (c.registers.getByte r)
  | w, .constant _ n => some (.ofInt w.bits n.value)
  | .word, .address l => some (layout l)
  | w, .memory _ p => some (c.memory.load (c.address layout p) w)
  | _, _ => none

/-- Let an operand be something of its size. -/
def write? : (w : Width) → Operand → BitVec w.bits → Option Computer
  | .word, .wordReg r, v => some { c with registers := c.registers.set r v }
  | .byte, .byteReg r, b => some { c with registers := c.registers.setByte r b }
  | w, .memory _ p, v => some { c with memory := c.memory.store (c.address layout p) w v }
  | _, _, _ => none

end Computer

/-- The size that an operand tells. -/
def Operand.width? : Operand → Option Width
  | wordReg _ => some .word
  | byteReg _ => some .byte
  | constant width _ => width
  | address _ => none
  | memory width _ => width

/-- The size of two operands, which one of them tells. -/
def commonWidth? (lhs rhs : Operand) : Option Width :=
  lhs.width? <|> rhs.width?

namespace Computer

variable (layout : Layout) (c : Computer)

/-! ## Instructions -/

/-- The services of DOS: wait for a key, which is shown, and print a byte. -/
def service? : Option Computer :=
  if highByte c.registers.ax = 1 then
    match c.keys with
    | [] => none
    | b :: rest =>
      some { c with
        registers := c.registers.setByte .al b
        keys := rest
        printed := c.printed ++ [b] }
  else if highByte c.registers.ax = 2 then
    -- the byte is left in the other half of the register as well
    let b := c.registers.getByte .dl
    some { c with registers := c.registers.setByte .al b, printed := c.printed ++ [b] }
  else
    none

/-- What an instruction does that goes on at the next one, if it is defined on its operands. -/
def effect? : Instr → Option Computer
  | .mov dst src => do
    let w ← commonWidth? dst src
    c.write? layout w dst (← c.read? layout w src)
  | .add dst src => do
    let w ← commonWidth? dst src
    let a ← c.read? layout w dst
    let b ← c.read? layout w src
    { c with flags := .add a b }.write? layout w dst (a + b)
  | .sub dst src => do
    let w ← commonWidth? dst src
    let a ← c.read? layout w dst
    let b ← c.read? layout w src
    { c with flags := .sub a b }.write? layout w dst (a - b)
  | .cmp lhs rhs => do
    let w ← commonWidth? lhs rhs
    let a ← c.read? layout w lhs
    let b ← c.read? layout w rhs
    return { c with flags := .sub a b }
  | .xor dst src => do
    let w ← commonWidth? dst src
    let a ← c.read? layout w dst
    let b ← c.read? layout w src
    { c with flags := .ofResult false false (a ^^^ b) }.write? layout w dst (a ^^^ b)
  | .xchg lhs rhs => do
    let w ← commonWidth? lhs rhs
    let a ← c.read? layout w lhs
    let b ← c.read? layout w rhs
    (← c.write? layout w lhs b).write? layout w rhs a
  | .push src => do
    let v ← c.read? layout .word src
    return { c with stack := .word v :: c.stack }
  | .pop dst =>
    match c.stack with
    | .word v :: rest => { c with stack := rest }.write? layout .word dst v
    | _ => none
  | .inc dst => do
    let w ← dst.width?
    let a ← c.read? layout w dst
    -- the carry stays as it is
    { c with flags := { Flags.add a 1 with carry := c.flags.carry } }.write? layout w dst (a + 1)
  | .dec dst => do
    let w ← dst.width?
    let a ← c.read? layout w dst
    { c with flags := { Flags.sub a 1 with carry := c.flags.carry } }.write? layout w dst (a - 1)
  | .neg dst => do
    let w ← dst.width?
    let a ← c.read? layout w dst
    { c with flags := .sub 0 a }.write? layout w dst (0 - a)
  | .mul src => do
    let v ← c.read? layout .word src
    -- the product fills two registers, and its upper half tells the carry
    let product := c.registers.ax.toNat * v.toNat
    let large := some (decide (65536 ≤ product))
    return { c with
      registers := { c.registers with ax := .ofNat 16 product, dx := .ofNat 16 (product / 65536) }
      flags := ⟨large, none, none, large⟩ }
  | .imul src => do
    let v ← c.read? layout .word src
    let product := c.registers.ax.toInt * v.toInt
    let large := some (decide ((BitVec.ofInt 16 product).toInt ≠ product))
    return { c with
      registers := { c.registers with ax := .ofInt 16 product, dx := .ofInt 16 (product / 65536) }
      flags := ⟨large, none, none, large⟩ }
  | .div src => do
    let divisor := (← c.read? layout .word src).toNat
    let dividend := 65536 * c.registers.dx.toNat + c.registers.ax.toNat
    -- the processor traps if there is no quotient that fits
    if divisor = 0 ∨ 65536 ≤ dividend / divisor then
      none
    else
      return { c with
        registers := { c.registers with
          ax := .ofNat 16 (dividend / divisor)
          dx := .ofNat 16 (dividend % divisor) }
        flags := ⟨none, none, none, none⟩ }
  | .idiv src => do
    let divisor := (← c.read? layout .word src).toInt
    let dividend := 65536 * c.registers.dx.toInt + c.registers.ax.toNat
    if divisor = 0 ∨ ¬ IsQuotient (dividend.tdiv divisor) then
      none
    else
      return { c with
        registers := { c.registers with
          ax := .ofInt 16 (dividend.tdiv divisor)
          dx := .ofInt 16 (dividend.tmod divisor) }
        flags := ⟨none, none, none, none⟩ }
  | .cwd =>
    let sign := if c.registers.ax.msb then -1 else 0
    some { c with registers := { c.registers with dx := sign } }
  | .cld => some c
  | .lodsb =>
    let rs := c.registers.setByte .al (c.memory c.registers.si)
    some { c with registers := { rs with si := rs.si + 1 } }
  | .repMovsb =>
    let rs := c.registers
    some { c with
      memory := c.memory.copy rs.si rs.di rs.cx.toNat
      registers := { rs with si := rs.si + rs.cx, di := rs.di + rs.cx, cx := 0 } }
  | .repStosb =>
    let rs := c.registers
    some { c with
      memory := c.memory.fill rs.di (rs.getByte .al) rs.cx.toNat
      registers := { rs with di := rs.di + rs.cx, cx := 0 } }
  | .int n => if n.value = 0x21 then c.service? else none
  | _ => none

/-! ## Steps -/

/-- The execution of an instruction at a place of a listing, and the place behind it. -/
def exec? (listing : List Item) (q : Nat) : Instr → Option (Nat × Computer)
  | .jmp l => do
    return (← resolve? listing q l, c)
  | .jump cond l => do
    if ← c.flags.holds? cond then
      return (← resolve? listing q l, c)
    else
      return (q + 1, c)
  | .loop l => do
    let cx := c.registers.cx - 1
    let c' := { c with registers := { c.registers with cx } }
    if cx = 0 then
      return (q + 1, c')
    else
      return (← resolve? listing q l, c')
  | .call l => do
    return (← resolve? listing q l, { c with stack := .place (q + 1) :: c.stack })
  | .ret =>
    match c.stack with
    | .place q' :: rest => some (q', { c with stack := rest })
    | _ => none
  | i => (c.effect? layout i).map (q + 1, ·)

/-- The execution of the item at a place of a listing, and the place behind it; storage cannot be
executed. -/
def step? (listing : List Item) (q : Nat) : Option (Nat × Computer) :=
  match listing[q]? with
  | some (.instr i) => c.exec? layout listing q i
  | some (.noted i _) => c.exec? layout listing q i
  | some (.storage ..) => none
  | some _ => some (q + 1, c)
  | none => none

end Computer

end LineBasic.Assembly
