import LineBasic.Program.Basic
import LineBasic.Text.Letters

/-!
# Scopes

A scope maps names to types without regard to letter case, and keeps the order in which the
names were first defined.  A scope can lie inside others; a name that it does not define means
what it means in the next one outward.

Main definitions:

- `Symbol` and `SymbolType`: a name with its type.
- `Frame`: the symbols of one level.
- `Scope.define`, `Scope.resolve?`, `Scope.nest`, `Scope.outer?`: the operations on a scope.
-/

namespace LineBasic

/-- The types of symbols and expressions; what has no value is void. -/
inductive SymbolType where
  | void | integer | string
deriving DecidableEq, Repr

/-- The type of the variables a declaration makes. -/
def DeclaredType.symbolType : DeclaredType → SymbolType
  | integer => .integer
  | string => .string

/-- A type as messages show it. -/
def SymbolType.spelling : SymbolType → String
  | void => "VOID"
  | integer => "INTEGER"
  | string => "STRING"

/-- A name and its type. -/
structure Symbol where
  name : String
  type : SymbolType
deriving DecidableEq, Repr

/-- A symbol is shown as its name and type in parentheses. -/
def Symbol.render (s : Symbol) : String :=
  "(" ++ s.name ++ ":" ++ s.type.spelling ++ ")"

/-! ## One level -/

/-- Put `s` in the place of the symbol of the same name, or behind all symbols. -/
def putSymbol (s : Symbol) : List Symbol → List Symbol
  | [] => [s]
  | t :: rest => if t.name = s.name then s :: rest else t :: putSymbol s rest

/-- The symbols of one level, in the order in which their names were first defined. -/
structure Frame where
  name : String
  symbols : List Symbol := []
deriving DecidableEq, Repr

namespace Frame

/-- Give the capitalised name a type; a name that is there keeps its place. -/
def define (f : Frame) (name : String) (type : SymbolType) : Frame :=
  { f with symbols := putSymbol ⟨upper name, type⟩ f.symbols }

/-- The symbol with a capitalised name. -/
def find? (f : Frame) (name : String) : Option Symbol :=
  f.symbols.find? fun s => s.name == name

/-- The name of the level, and its symbols on one line each. -/
def render (f : Frame) : String :=
  "--" ++ f.name ++ " symbols--:" ++ String.join (f.symbols.map fun s => "\n" ++ s.render)

end Frame

/-! ## Levels inside one another -/

/-- A level and the levels around it, the nearest one first. -/
structure Scope where
  frame : Frame
  enclosing : List Frame := []
deriving DecidableEq, Repr

namespace Scope

/-- A scope without symbols and with nothing around it. -/
def empty (name : String) : Scope :=
  ⟨⟨name, []⟩, []⟩

/-- The name of the innermost level. -/
def name (s : Scope) : String := s.frame.name

/-- The symbols of the innermost level. -/
def symbols (s : Scope) : List Symbol := s.frame.symbols

/-- Give a name a type in the innermost level. -/
def define (s : Scope) (name : String) (type : SymbolType) : Scope :=
  { s with frame := s.frame.define name type }

/-- The innermost symbol with a name, in any letter case. -/
def resolve? (s : Scope) (name : String) : Option Symbol :=
  (s.frame :: s.enclosing).findSome? fun f => f.find? (upper name)

/-- The type of a name. -/
def typeOf? (s : Scope) (name : String) : Option SymbolType :=
  (s.resolve? name).map Symbol.type

/-- A new level without symbols inside the scope. -/
def nest (s : Scope) (name : String) : Scope :=
  ⟨⟨name, []⟩, s.frame :: s.enclosing⟩

/-- The scope around the innermost level. -/
def outer? (s : Scope) : Option Scope :=
  match s.enclosing with
  | [] => none
  | f :: rest => some ⟨f, rest⟩

/-- The innermost level, shown with its symbols. -/
def render (s : Scope) : String := s.frame.render

end Scope

end LineBasic
