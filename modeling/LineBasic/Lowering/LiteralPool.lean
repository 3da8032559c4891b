import LineBasic.Assembly.Listing

/-!
# Literal pools

A pool holds the distinct texts of a program in the order in which they first occur, so that
each text is stored once, however often the program uses it.

Main definitions:

- `LiteralPool.intern`: the index of a text, which joins the pool if it is new.
- `LiteralPool.listing`: the storage of all texts.
-/

namespace LineBasic

open Assembly

/-- Distinct texts in the order of their first use. -/
structure LiteralPool where
  texts : List String := []
deriving DecidableEq, Repr

namespace LiteralPool

/-- The number of texts in a pool. -/
def size (pool : LiteralPool) : Nat :=
  pool.texts.length

/-- The index of a text in the pool, and the pool that has it. -/
def intern (pool : LiteralPool) (text : String) : Nat × LiteralPool :=
  match pool.texts.idxOf? text with
  | some i => (i, pool)
  | none => (pool.size, ⟨pool.texts ++ [text]⟩)

/-- The indices of texts interned one after the other, and the pool behind each of them. -/
def internAll (pool : LiteralPool) : List String → List (Nat × LiteralPool)
  | [] => []
  | text :: rest => pool.intern text :: internAll (pool.intern text).2 rest

/-- The storage of texts of which the first has the index `i`. -/
def storageFrom (i : Nat) : List String → List Item
  | [] => []
  | text :: rest => .storage (.literal i) (.text text) :: storageFrom (i + 1) rest

/-- The storage of all texts. -/
def listing (pool : LiteralPool) : List Item :=
  storageFrom 0 pool.texts

end LiteralPool

end LineBasic
