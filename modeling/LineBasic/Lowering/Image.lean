import LineBasic.Assembly.Routines
import LineBasic.Lowering.Statement

/-!
# Images of programs

The image of a program is everything its listing holds between the preamble and the routines:
the code of its lines, the storage of its variables, and its texts.

Main definitions:

- `Image.ofProgram`: the image of a program.
- `Image.body` and `Image.listing`: its part of the listing, and the whole listing.
-/

namespace LineBasic

open Assembly

/-- The parts of a listing that depend on the program. -/
structure Image where
  code : List Item
  symbols : List Symbol
  pool : LiteralPool
deriving DecidableEq, Repr

/-- The storage that a symbol of a type needs. -/
def SymbolType.storage? : SymbolType → Option Storage
  | void => none
  | integer => some .zeroWord
  | string => some (.zeroBytes stringSize)

/-- The storage of variables. -/
def variableListing (symbols : List Symbol) : List Item :=
  symbols.filterMap fun s => s.type.storage?.map (.storage (.var s.name))

namespace Image

/-- The image of a program whose variables are those of the scope. -/
def ofProgram (scope : Scope) (program : Program) : Image :=
  let (items, s) := (lowerLines scope program.lines).run {}
  { code := items, symbols := scope.symbols, pool := s.pool }

/-- What the image adds to a listing.  Code that runs past its last line ends with an error. -/
def body (image : Image) : List Item :=
  image.code ++ [.blank, .instr (.jmp (.routine .pcOutOfRange)), .blank] ++
    variableListing image.symbols ++ [.blank] ++ image.pool.listing ++
    [.blank, .storage .scratch (.zeroBytes stringSize)]

/-- The whole listing of a program. -/
def listing (image : Image) : List Item :=
  preamble ++ image.body ++ routines

end Image

end LineBasic
