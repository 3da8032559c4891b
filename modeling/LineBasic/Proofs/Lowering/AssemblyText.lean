import Mathlib
import LineBasic.Proofs.Lowering.Closed

/-!
# Closed assembly

The assembly text of a program can be assembled: read line by line, it defines every name once, and
every name that one of its instructions mentions.  It stores the declared variables in their order
and the texts of the program, each under the name by which it is used.

Main definitions:

- `variableLine`: the line that stores a variable.
- `ClosedText`: a text of assembly that is closed and has the storage of a program.

Main result:

- `exists_closedText`: every program that is accepted has an assembly text that is closed.
-/

namespace LineBasic

open Assembly

/-! ## Lines of storage -/

/-- The line that stores a variable: a word for a number, thirty-two bytes for a text. -/
def variableLine (s : Symbol) : String :=
  match s.type with
  | .integer => "Var_" ++ s.name ++ ": DW 0000h"
  | .string => "Var_" ++ s.name ++ ": TIMES 32 DB 00h"
  | .void => ""

/-- The names of texts that lines mention, one entry for each use. -/
def textUses (lines : List (List Char)) : List (List Char) :=
  (lines.flatMap mentionedNames).filter ("Pool_".toList.isPrefixOf ·)

/-- A text of assembly that is closed and has the storage of a program. -/
structure ClosedText (program : Program) (text : String) : Prop where
  /-- No name is defined twice. -/
  nodup : (definedSymbols [] (textLines text)).Nodup
  /-- Every name that an instruction mentions is defined. -/
  subset : mentionedSymbols [] (textLines text) ⊆ definedSymbols [] (textLines text)
  /-- The declared variables are stored in their order. -/
  storage : (textLines text).filter ("Var_".toList.isPrefixOf ·) =
    (declarations program.lines).map fun s => (variableLine s).toList
  /-- Each use of a text is that of a name under which the text is stored. -/
  texts : List.Forall₂ (fun name content => textLine name content ∈ textLines text)
    (textUses (textLines text)) program.texts

/-! ## Names of variables and texts -/

/-- Labels of variables begin in their own way, whatever stands behind them. -/
theorem isPrefixOf_var (l : Label) (rest : List Char) :
    "Var_".toList.isPrefixOf (l.render.toList ++ rest) = decide (l.kind = 1) := by
  cases l with
  | routine r | message r =>
    cases r <;> simp [Label.render, Label.kind, Routine.spelling, List.isPrefixOf]
  | _ => simp [Label.render, Label.kind, List.isPrefixOf]

/-- Labels of texts begin in their own way. -/
theorem isPrefixOf_literal (l : Label) :
    "Pool_".toList.isPrefixOf l.render.toList = decide (l.kind = 2) := by
  cases l with
  | routine r | message r =>
    cases r <;> simp [Label.render, Label.kind, Routine.spelling, List.isPrefixOf]
  | _ => simp [Label.render, Label.kind, List.isPrefixOf]

/-- An item is that of a variable. -/
def isVariableItem (i : Item) : Bool :=
  i.defined?.any fun l => decide (l.kind = 1)

/-- An item of a variable defines its label. -/
theorem exists_of_isVariableItem {i : Item} (h : isVariableItem i = true) :
    ∃ x, i.defined? = some (.var x) := by
  unfold isVariableItem at h
  cases hdefined : i.defined? with
  | none =>
    rw [hdefined] at h
    cases h
  | some l =>
    rw [hdefined] at h
    cases l with
    | var x => exact ⟨x, rfl⟩
    | _ => cases h

/-- Items of variables begin with the label of the variable. -/
theorem isPrefixOf_render (i : Item) :
    "Var_".toList.isPrefixOf i.render.toList = isVariableItem i := by
  cases i with
  | label l | storage l s =>
    rw [Item.render, String.toList_append]
    simp only [String.toList_append, List.append_assoc, isPrefixOf_var]
    rfl
  | _ => simp [Item.render, List.isPrefixOf, isVariableItem, Item.defined?]

/-- Among the names of labels, those of texts are found by the way they begin. -/
theorem filter_isPrefixOf_literal (labels : List Label) :
    (labels.map fun l => l.render.toList).filter ("Pool_".toList.isPrefixOf ·) =
      (labels.filterMap Label.literal?).map fun k => (Label.literal k).render.toList := by
  induction labels with
  | nil => rfl
  | cons l rest ih =>
    rw [List.map_cons, List.filter_cons, isPrefixOf_literal, ih]
    cases l <;> rfl

/-! ## The text of a listing -/

section Listing

variable {checked : Checked}

/-- The lines of a listing that begin like variables are the storage of the variables. -/
theorem filter_isVariableItem_listing (h : checked.WellFormed) :
    checked.image.listing.filter isVariableItem = variableListing checked.image.symbols := by
  have hpreamble : preamble.filter isVariableItem = [] := rfl
  have hroutines : routines.filter isVariableItem = [] := by decide +kernel
  have hcode : checked.image.code.filter isVariableItem = [] := by
    rw [List.filter_eq_nil_iff]
    intro i hi hvariable
    rcases exists_of_isVariableItem hvariable with ⟨x, hx⟩
    rcases exists_mem_definitions hi hx none with ⟨whose, hname⟩
    rcases mem_definitions_lowerLines hname with ⟨line, -, heq | ⟨s, heq⟩⟩ <;> cases heq
  have hvariables : (variableListing checked.image.symbols).filter isVariableItem =
      variableListing checked.image.symbols := by
    rw [variableListing_eq h.type_ne_void, List.filter_eq_self]
    exact List.forall_mem_map.2 fun s hs => rfl
  have htexts : checked.image.pool.listing.filter isVariableItem = [] := by
    rw [LiteralPool.listing, storageFrom_eq, List.filter_eq_nil_iff]
    exact List.forall_mem_map.2 fun p hp => Bool.false_ne_true
  have hstorage : checked.image.storage.filter isVariableItem =
      variableListing checked.image.symbols := by
    have hexit : [Item.blank, .instr (.jmp (.routine .pcOutOfRange)), .blank].filter
        isVariableItem = [] := rfl
    have hblank : [Item.blank].filter isVariableItem = [] := rfl
    have hscratch : [Item.blank, .storage .scratch (.zeroBytes stringSize)].filter
        isVariableItem = [] := rfl
    rw [Image.storage, List.filter_append, List.filter_append, List.filter_append,
      List.filter_append, hvariables, htexts, hexit, hblank, hscratch, List.nil_append,
      List.append_nil, List.append_nil, List.append_nil]
  rw [Image.listing_eq_storage, List.filter_append, List.filter_append, List.filter_append,
    hpreamble, hcode, hstorage, hroutines, List.nil_append, List.nil_append, List.append_nil]

/-- The line of a variable. -/
theorem render_variable (s : Symbol) (h : s.type ≠ .void) :
    (Item.storage (.var s.name)
      (if s.type = .integer then .zeroWord else .zeroBytes stringSize)).render =
      variableLine s := by
  rcases s with ⟨name, type⟩
  cases type with
  | void => exact absurd rfl h
  | integer =>
    apply String.toList_injective
    simp [Item.render, Label.render, Storage.render, variableLine]
  | string =>
    have hsize : Nat.toDigits 10 32 = ['3', '2'] := by decide
    apply String.toList_injective
    simp [Item.render, Label.render, Storage.render, variableLine, stringSize, hsize]

/-- What is defined in a listing is legible. -/
theorem legible_of_mem_definedNames (h : checked.WellFormed) (hspelled : checked.program.Spelled)
    (hsymbols : checked.scope.symbols = declarations checked.program.lines) :
    ∀ name ∈ definedNames none checked.image.listing, name.Legible := by
  intro name hname
  rcases (mem_definedNames_listing h).1 hname with hcode | ⟨l, hl, rfl⟩ | hroutine
  · rw [mem_definedNames] at hcode
    rcases mem_definitions_lowerLines hcode with ⟨line, hline, rfl | ⟨s, rfl⟩⟩
    · exact .outer (hspelled.number_nonneg line hline) (by simp)
    · exact .inner (hspelled.number_nonneg line hline) (by simp)
  · rcases mem_storageLabels_iff.1 hl with ⟨s, hs, rfl⟩ | ⟨k, -, rfl⟩ | rfl
    · exact .outer (hspelled.isAlphanum s (hsymbols ▸ hs)) (by simp)
    · exact .outer trivial (by simp)
    · exact .outer trivial (by simp)
  · exact legible_of_mem_routineNames hroutine

/-- The text of a checked program is closed. -/
theorem closedText_render (h : checked.WellFormed) (hspelled : checked.program.Spelled)
    (hsymbols : checked.scope.symbols = declarations checked.program.lines) :
    ClosedText checked.program (render checked.image.listing) := by
  have hlegible : ∀ i ∈ checked.image.listing, i.Legible :=
    fun i hi => (readable_of_mem_listing h hspelled hsymbols i hi).legible
  have hlines := textLines_render fun i hi => (hlegible i hi).one_line
  have hdefined : definedSymbols [] (textLines (render checked.image.listing)) =
      (definedNames none checked.image.listing).map FullName.spelled := by
    rw [hlines]
    exact definedSymbols_lines hlegible none
  have hmentioned : mentionedSymbols [] (textLines (render checked.image.listing)) =
      (references none checked.image.listing).map FullName.spelled := by
    rw [hlines]
    exact mentionedSymbols_lines hlegible none
  constructor
  · rw [hdefined]
    have hnames := legible_of_mem_definedNames h hspelled hsymbols
    exact (nodup_definedNames h).map_on fun m hm n hn =>
      FullName.spelled_inj (hnames m hm) (hnames n hn)
  · rw [hdefined, hmentioned]
    exact List.map_subset _ (references_subset h)
  · have hitems : (fun cs => "Var_".toList.isPrefixOf cs) ∘ (fun i : Item => i.render.toList) =
        isVariableItem := funext isPrefixOf_render
    rw [hlines, List.filter_append, List.filter_map, hitems, filter_isVariableItem_listing h,
      variableListing_eq h.type_ne_void, List.map_map, ← hsymbols]
    have hblank : [([] : List Char)].filter ("Var_".toList.isPrefixOf ·) = [] := rfl
    rw [hblank, List.append_nil]
    refine List.map_congr_left fun s hs => ?_
    exact congrArg String.toList (render_variable s (h.type_ne_void s hs))
  · have huses : textUses (textLines (render checked.image.listing)) =
        (literalUses checked.image.code).map fun k => (Label.literal k).render.toList := by
      rw [← literalUses_listing h, literalUses, ← filter_isPrefixOf_literal, textUses, hlines,
        flatMap_mentionedNames hlegible]
    rw [huses, List.forall₂_map_left_iff]
    refine List.Forall₂.imp (fun k content hget => ?_) (holds_code h)
    rw [← render_text, hlines]
    refine List.mem_append_left _ (List.mem_map_of_mem ?_)
    exact storage_mem_listing hget

end Listing

/-! ## Accepted texts -/

/-- The scope of an accepted text holds its declarations. -/
theorem symbols_of_check {source : String} {checked : Checked} (h : check source = .ok checked) :
    checked.scope.symbols = declarations checked.program.lines := by
  rcases except_bind_eq_ok_iff.1 h with ⟨program, -, h⟩
  rcases except_bind_eq_ok_iff.1 h with ⟨_, -, h⟩
  rcases except_bind_eq_ok_iff.1 h with ⟨scope, hscope, h⟩
  cases h
  rw [Program.scope_eq (except_mapError_eq_ok_iff.1 hscope)]
  rfl

/-- An accepted text is spelled by its tokens. -/
theorem spelled_of_check {source : String} {checked : Checked} (h : check source = .ok checked) :
    checked.program.Spelled :=
  Program.spelled_of_parse (Checked.parse_of_check h)

/-- Every program that is accepted has an assembly text, and this is closed: each name in it is
defined once, each name that it mentions is defined, and it stores the variables and texts of the
program. -/
theorem exists_closedText {source : String} {checked : Checked} (h : check source = .ok checked) :
    ∃ text, assemblyText source = .ok text ∧ ClosedText checked.program text := by
  refine ⟨render checked.image.listing, ?_, closedText_render (Checked.wellFormed_of_check h)
    (spelled_of_check h) (symbols_of_check h)⟩
  rw [assemblyText, assemble, h]
  rfl

/-- A program with variables of both types, two divisions, and two uses of one text. -/
def quotients : String :=
  "1 STRING S\r\n2 INTEGER A\r\n3 INPUT A\r\n" ++
    "4 IF A / 2 < A / 3 THEN PRINT \"a\", \"a\"\r\n5 GOTO 3"

theorem closedText_of_quotients :
    ∃ checked text, check quotients = .ok checked ∧ checked.program.texts = ["a", "a"] ∧
      assemblyText quotients = .ok text ∧ ClosedText checked.program text := by
  let checked : Checked :=
    ⟨⟨[⟨1, .declare .string ["S"]⟩, ⟨2, .declare .integer ["A"]⟩, ⟨3, .input "A"⟩,
      ⟨4, .cond (.binary .div (.name "A") (.number 2)) .less
        (.binary .div (.name "A") (.number 3)) (.print [.text "a", .text "a"])⟩,
      ⟨5, .goto 3⟩]⟩,
      ⟨⟨"GLOBAL", [⟨"S", .string⟩, ⟨"A", .integer⟩]⟩, []⟩⟩
  have hcheck : check quotients = .ok checked := by cbv
  rcases exists_closedText hcheck with ⟨text, htext, hclosed⟩
  exact ⟨checked, text, hcheck, rfl, htext, hclosed⟩

end LineBasic
