import LineBasic.Assembly.Listing
import LineBasic.Proofs.Text.Rows
import Mathlib.Data.List.TakeWhile

/-!
# Reading assembly

How an assembler finds the names in a text.  A line may begin with a name and a colon, which
defines the name; an instruction stands behind a tab and mentions all names in it, up to the
semicolon where a note begins.  A name with a leading dot is short for one that begins with the
last name without a dot that is defined before.

Main definitions:

- `namesIn`: the words of a line that are no numbers and no words of the assembler.
- `definedName?` and `mentionedNames`: the names that one line defines and mentions.
- `definedSymbols` and `mentionedSymbols`: the full names that lines define and mention.
- `Reads`: part of an instruction with the names in it.

Main results:

- `textLines_render`: the lines of a listing.
- `Reads.append_cons`: parts of an instruction are read one after the other.
- `namesIn_word`: a word is read as a whole.
-/

namespace LineBasic.Assembly

/-! ## Words -/

/-- The characters of names that have no dot in front. -/
def isNameChar (c : Char) : Bool :=
  c.isAlphanum || c == '_'

/-- The characters of names. -/
def isSymbolChar (c : Char) : Bool :=
  isNameChar c || c == '.'

/-- The characters of words.  A quoted character is read as a word that begins with a quote. -/
def isWordChar (c : Char) : Bool :=
  isSymbolChar c || c == '\''

/-- The words of the assembler that may stand in an instruction: the mnemonics, the registers and
the sizes. -/
def reservedWords : List String :=
  ["mov", "add", "sub", "cmp", "xor", "xchg", "push", "pop", "inc", "dec", "neg", "mul", "imul",
    "div", "idiv", "cwd", "cld", "lodsb", "rep", "movsb", "stosb", "int", "jmp", "je", "jne",
    "jnl", "jnle", "jng", "jnge", "jge", "jo", "jb", "ja", "jae", "jc", "loop", "call", "ret",
    "ax", "bx", "cx", "dx", "si", "di", "al", "ah", "cl", "ch", "dl", "byte", "word", "bits",
    "org"]

/-- Words that begin with a digit are numbers. -/
def isName (w : List Char) : Bool :=
  match w with
  | [] => false
  | c :: _ => !c.isDigit && c != '\'' && !reservedWords.contains (String.ofList w)

/-- The names in a stretch of text. -/
def namesIn (cs : List Char) : List (List Char) :=
  (cs.splitOnP fun c => !isWordChar c).filter isName

/-! ## Lines -/

/-- The lines of a text; behind its last line feed there is an empty one. -/
def textLines (text : String) : List (List Char) :=
  text.toList.splitOn '\n'

/-- The lines of a listing are its items, if these have no line feeds in them; behind the last line
feed there is an empty one. -/
theorem textLines_render {listing : List Item} (h : ∀ i ∈ listing, '\n' ∉ i.render.toList) :
    textLines (render listing) = (listing.map fun i => i.render.toList) ++ [[]] := by
  rw [textLines, toList_render, renderChars, ← splitOn_flatMap (List.forall_mem_map.2 h),
    List.flatMap_map]

/-- The name that a line defines, with the dot if it has one. -/
def definedName? (line : List Char) : Option (List Char) :=
  match line.dropWhile isSymbolChar with
  | ':' :: _ => some (line.takeWhile isSymbolChar)
  | _ => none

/-- The names that a line mentions in an instruction. -/
def mentionedNames (line : List Char) : List (List Char) :=
  match line with
  | '\t' :: instruction => namesIn (instruction.takeWhile (· != ';'))
  | _ => []

/-- A name with a leading dot is continued in front by the name that it belongs to. -/
def fullSymbol (owner w : List Char) : List Char :=
  match w with
  | '.' :: _ => owner ++ w
  | _ => w

/-- A name without a dot in front is a full name. -/
theorem fullSymbol_of_ne {w : List Char} (h : ∀ rest, w ≠ '.' :: rest) (owner : List Char) :
    fullSymbol owner w = w := by
  rw [fullSymbol]
  exact h

/-- The name that dots stand for behind a line. -/
def symbolOwner (owner line : List Char) : List Char :=
  match definedName? line with
  | none => owner
  | some ('.' :: _) => owner
  | some w => w

/-- The full names that lines define. -/
def definedSymbols (owner : List Char) : List (List Char) → List (List Char)
  | [] => []
  | line :: rest =>
    ((definedName? line).map (fullSymbol owner)).toList ++
      definedSymbols (symbolOwner owner line) rest

/-- The full names that lines mention in instructions. -/
def mentionedSymbols (owner : List Char) : List (List Char) → List (List Char)
  | [] => []
  | line :: rest =>
    (mentionedNames line).map (fullSymbol owner) ++
      mentionedSymbols (symbolOwner owner line) rest

/-! ## Reading in parts -/

/-- No name goes across a character that is none of a word. -/
theorem namesIn_append_cons {c : Char} (h : isWordChar c = false) (xs ys : List Char) :
    namesIn (xs ++ c :: ys) = namesIn xs ++ namesIn ys := by
  have hsplit : (xs ++ c :: ys).splitOnP (fun c => !isWordChar c) =
      xs.splitOnP (fun c => !isWordChar c) ++ ys.splitOnP (fun c => !isWordChar c) :=
    List.splitOnP_append_cons xs ys (by simp [h])
  rw [namesIn, hsplit, List.filter_append]
  rfl

/-- A word is read as a whole. -/
theorem namesIn_word {w : List Char} (h : ∀ c ∈ w, isWordChar c = true) :
    namesIn w = if isName w then [w] else [] := by
  have hsplit : w.splitOnP (fun c => !isWordChar c) = [w] :=
    List.splitOnP_eq_singleton fun c hc => by simp [h c hc]
  rw [namesIn, hsplit, List.filter_cons, List.filter_nil]

/-- Part of an instruction, which no note or line feed interrupts, with the names in it. -/
structure Reads (cs : List Char) (names : List (List Char)) : Prop where
  names_eq : namesIn cs = names
  plain : ∀ c ∈ cs, c ≠ ';' ∧ c ≠ '\n'

instance (cs : List Char) (names : List (List Char)) : Decidable (Reads cs names) :=
  decidable_of_iff (namesIn cs = names ∧ cs.all (fun c => decide (c ≠ ';' ∧ c ≠ '\n')) = true)
    ⟨fun h => ⟨h.1, by simpa using h.2⟩, fun h => ⟨h.names_eq, by simpa using h.plain⟩⟩

namespace Reads

variable {xs ys : List Char} {names more : List (List Char)}

/-- Parts are read one after the other. -/
theorem append_cons (hxs : Reads xs names) {c : Char}
    (hc : isWordChar c = false ∧ c ≠ ';' ∧ c ≠ '\n') (hys : Reads ys more) :
    Reads (xs ++ c :: ys) (names ++ more) where
  names_eq := by rw [namesIn_append_cons hc.1, hxs.names_eq, hys.names_eq]
  plain := by
    rw [List.forall_mem_append, List.forall_mem_cons]
    exact ⟨hxs.plain, hc.2, hys.plain⟩

/-- A character that is none of a word mentions nothing. -/
theorem cons {c : Char} (hc : isWordChar c = false ∧ c ≠ ';' ∧ c ≠ '\n') (hys : Reads ys more) :
    Reads (c :: ys) more := by
  have hnil : Reads [] [] := by decide
  exact hnil.append_cons hc hys

/-- Characters that are none of words mention nothing behind others. -/
theorem append_gap (hxs : Reads xs names)
    (hys : ∀ c ∈ ys, isWordChar c = false ∧ c ≠ ';' ∧ c ≠ '\n') : Reads (xs ++ ys) names := by
  induction ys generalizing xs with
  | nil => rwa [List.append_nil]
  | cons c rest ih =>
    rcases List.forall_mem_cons.1 hys with ⟨hc, hrest⟩
    have hone := hxs.append_cons hc (by decide : Reads [] [])
    rw [List.append_nil] at hone
    rw [List.append_cons]
    exact ih hone hrest

/-- A word is read as a whole. -/
theorem word {w : List Char} (h : ∀ c ∈ w, isWordChar c = true) :
    Reads w (if isName w then [w] else []) where
  names_eq := namesIn_word h
  plain c hc := by
    have hchar := h c hc
    constructor <;> rintro rfl <;> revert hchar <;> decide

end Reads

/-- An instruction is read up to its note. -/
theorem mentionedNames_tab {instruction : List Char} {names : List (List Char)}
    (h : Reads instruction names) {note : List Char} (hnote : ∀ c ∈ note.head?, c = ';') :
    mentionedNames ('\t' :: (instruction ++ note)) = names := by
  have hplain : ∀ c ∈ instruction, (c != ';') = true := by
    intro c hc
    simpa using (h.plain c hc).1
  have htake : (instruction ++ note).takeWhile (· != ';') = instruction := by
    rw [List.takeWhile_append_of_pos hplain]
    cases note with
    | nil => simp
    | cons c rest =>
      obtain rfl := hnote c rfl
      simp
  rw [mentionedNames, htake, h.names_eq]

end LineBasic.Assembly
