import LineBasic.Proofs.Lowering.LineReferences

/-!
# Closed listings

The listing of a checked program defines every full name once, and every label that one of its
instructions takes.  The texts it stores are those that the program uses.

Main definition:

- `Image.storage`: the part of a listing between the code of the lines and the routines.

Main results:

- `nodup_definedNames`: no full name is defined twice.
- `references_subset`: every reference is to a full name that is defined.
- `holds_code`: every use of a text takes the label under which the text is stored.
- `readable_of_mem_listing`: all of a listing can be read.
-/

namespace LineBasic

open Assembly

/-! ## Storage -/

section Storage

/-- What stands between the code of the lines and the routines. -/
def Image.storage (image : Image) : List Item :=
  [.blank, .instr (.jmp (.routine .pcOutOfRange)), .blank] ++ variableListing image.symbols ++
    [.blank] ++ image.pool.listing ++ [.blank, .storage .scratch (.zeroBytes stringSize)]

/-- The labels that storage is found under. -/
def Image.storageLabels (image : Image) : List Label :=
  image.symbols.map (fun s => .var s.name) ++
    ((List.range image.pool.size).map .literal ++ [.scratch])

/-- The listing is the preamble, the code of the lines, storage, and the routines. -/
theorem Image.listing_eq_storage (image : Image) :
    image.listing = preamble ++ (image.code ++ (image.storage ++ routines)) := by
  simp only [Image.listing, Image.body, Image.storage, List.append_assoc]

/-- The storage of variables with types of values. -/
theorem variableListing_eq {symbols : List Symbol} (h : ∀ s ∈ symbols, s.type ≠ .void) :
    variableListing symbols = symbols.map fun s =>
      .storage (.var s.name) (if s.type = .integer then .zeroWord else .zeroBytes stringSize) := by
  rw [variableListing, ← List.filterMap_eq_map]
  refine List.filterMap_congr fun s hs => ?_
  cases htype : s.type with
  | void => exact absurd htype (h s hs)
  | integer | string => simp [htype, SymbolType.storage?]

/-- Storage is found under its label. -/
theorem filterMap_defined?_map {α : Type} (label : α → Label) (stored : α → Storage)
    (as : List α) :
    (as.map fun a => Item.storage (label a) (stored a)).filterMap Item.defined? =
      as.map label := by
  rw [List.filterMap_map, ← List.filterMap_eq_map]
  rfl

/-- Storage mentions nothing. -/
theorem mentioned_map {α : Type} (label : α → Label) (stored : α → Storage) (as : List α) :
    mentioned (as.map fun a => Item.storage (label a) (stored a)) = [] := by
  rw [mentioned, List.flatMap_map]
  exact List.flatMap_eq_nil_iff.2 fun _ _ => rfl

variable {image : Image}

/-- All storage is found under its labels. -/
theorem filterMap_defined?_storage (h : ∀ s ∈ image.symbols, s.type ≠ .void) :
    image.storage.filterMap Item.defined? = image.storageLabels := by
  have hindices : (image.pool.texts.zipIdx 0).map (fun p => Label.literal p.2) =
      (List.range image.pool.size).map .literal := by
    rw [List.range_eq_range', LiteralPool.size, ← List.zipIdx_map_snd, List.map_map]
    rfl
  have hfront : [Item.blank, .instr (.jmp (.routine .pcOutOfRange)), .blank].filterMap
      Item.defined? = [] := rfl
  have hblank : [Item.blank].filterMap Item.defined? = [] := rfl
  have hscratch : [Item.blank, .storage .scratch (.zeroBytes stringSize)].filterMap
      Item.defined? = [.scratch] := rfl
  rw [Image.storage, variableListing_eq h, LiteralPool.listing, storageFrom_eq,
    List.filterMap_append, List.filterMap_append, List.filterMap_append, List.filterMap_append,
    filterMap_defined?_map, filterMap_defined?_map, hfront, hblank, hscratch, hindices,
    List.nil_append, List.append_nil, List.append_assoc, Image.storageLabels]

/-- Storage has no dot labels. -/
theorem defined?_ne_inner_of_mem_storage (h : ∀ s ∈ image.symbols, s.type ≠ .void) :
    ∀ i ∈ image.storage, ∀ s, i.defined? ≠ some (.inner s) := by
  intro i hi s heq
  have hmem : Label.inner s ∈ image.storage.filterMap Item.defined? :=
    List.mem_filterMap.2 ⟨i, hi, heq⟩
  rw [filterMap_defined?_storage h] at hmem
  simp [Image.storageLabels] at hmem

/-- In front of storage, code that runs past its end leaves the program. -/
theorem mentioned_storage (h : ∀ s ∈ image.symbols, s.type ≠ .void) :
    mentioned image.storage = [.routine .pcOutOfRange] := by
  rw [Image.storage, variableListing_eq h, LiteralPool.listing, storageFrom_eq]
  simp only [mentioned_append, mentioned_map]
  rfl

/-- Behind storage, dot labels would belong to the last label of it. -/
theorem ownerBehind_storage (owner : Option Label) :
    ownerBehind owner image.storage = some .scratch := by
  rw [Image.storage, ownerBehind_append]
  rfl

/-- Storage is that of variables, of texts, and of the line that is read. -/
theorem mem_storageLabels_iff {l : Label} :
    l ∈ image.storageLabels ↔ (∃ s ∈ image.symbols, .var s.name = l) ∨
      (∃ k < image.pool.size, .literal k = l) ∨ l = .scratch := by
  simp only [Image.storageLabels, List.mem_append, List.mem_map, List.mem_range,
    List.mem_singleton]

/-- No storage is found under two labels. -/
theorem nodup_storageLabels (h : (image.symbols.map Symbol.name).Nodup) :
    image.storageLabels.Nodup := by
  have hvariables : (image.symbols.map fun s => Label.var s.name).Nodup := by
    have hmap := List.Nodup.map (f := Label.var) (fun x y heq => Label.var.inj heq) h
    rwa [List.map_map] at hmap
  have htexts : ((List.range image.pool.size).map Label.literal).Nodup :=
    List.Nodup.map (fun j k heq => Label.literal.inj heq) List.nodup_range
  rw [Image.storageLabels, List.nodup_append, List.nodup_append]
  refine ⟨hvariables, ⟨htexts, List.nodup_singleton _, ?_⟩, ?_⟩
  · simp
  · rintro l hl m hm rfl
    rcases List.mem_map.1 hl with ⟨s, -, rfl⟩
    simp at hm

end Storage

/-! ## The listing of a program -/

section Listing

variable {checked : Checked}

/-- The image of a checked program. -/
def Checked.image (checked : Checked) : Image :=
  Image.ofProgram checked.scope checked.program

/-- Variables have types of values. -/
theorem Checked.WellFormed.type_ne_void (h : checked.WellFormed) :
    ∀ s ∈ checked.image.symbols, s.type ≠ .void :=
  h.isGlobal.type_ne_void

/-- The names that the routines define. -/
def routineNames : List FullName :=
  definedNames (some .scratch) routines

/-- What a listing defines: the code of the lines, then storage, then the routines. -/
theorem definedNames_listing (h : checked.WellFormed) :
    definedNames none checked.image.listing =
      definedNames none checked.image.code ++
        (checked.image.storageLabels.map (fun l => ⟨none, l⟩) ++ routineNames) := by
  have hpreamble : definedNames none preamble = [] := rfl
  have howner : ownerBehind none preamble = none := rfl
  rw [Image.listing_eq_storage, definedNames_append, hpreamble, howner, List.nil_append,
    definedNames_append, definedNames_append, ownerBehind_storage,
    definedNames_eq_of_outer (defined?_ne_inner_of_mem_storage h.type_ne_void),
    filterMap_defined?_storage h.type_ne_void]
  rfl

/-- A name is defined in the code of the lines, as storage, or by the routines. -/
theorem mem_definedNames_listing (h : checked.WellFormed) {name : FullName} :
    name ∈ definedNames none checked.image.listing ↔
      name ∈ definedNames none checked.image.code ∨
        (∃ l ∈ checked.image.storageLabels, ⟨none, l⟩ = name) ∨ name ∈ routineNames := by
  rw [definedNames_listing h, List.mem_append, List.mem_append, List.mem_map]

/-- What the code of lines defines begins with the label of a line. -/
theorem kind_front_of_mem_code {name : FullName}
    (h : name ∈ definedNames none checked.image.code) : name.front.kind = 0 := by
  rw [mem_definedNames] at h
  rcases mem_definitions_lowerLines h with ⟨line, -, rfl | ⟨s, rfl⟩⟩ <;> rfl

/-- What the routines define begins with their own labels. -/
theorem front_of_mem_routineNames :
    ∀ name ∈ routineNames, name.front.kind = 4 ∧ name.front ≠ .scratch := by
  decide +kernel

/-- No full name is defined twice. -/
theorem nodup_definedNames (h : checked.WellFormed) :
    (definedNames none checked.image.listing).Nodup := by
  have hcode : (definedNames none checked.image.code).Nodup :=
    nodup_definedNames_lowerLines h.numbered.nodup _ _
  have hstorage : (checked.image.storageLabels.map fun l => FullName.mk none l).Nodup :=
    List.Nodup.map (fun l m heq => congrArg FullName.label heq)
      (nodup_storageLabels h.isGlobal.nodup)
  have hroutines : routineNames.Nodup := by decide +kernel
  rw [definedNames_listing h, List.nodup_append, List.nodup_append]
  -- each part has names of a kind that the others have not
  refine ⟨hcode, ⟨hstorage, hroutines, ?_⟩, ?_⟩
  · rintro name hname other hother rfl
    rcases front_of_mem_routineNames name hother with ⟨hkind, hscratch⟩
    rcases List.mem_map.1 hname with ⟨l, hl, rfl⟩
    rcases mem_storageLabels_iff.1 hl with ⟨s, -, rfl⟩ | ⟨k, -, rfl⟩ | rfl
    · cases hkind
    · cases hkind
    · exact hscratch rfl
  · rintro name hname other hother rfl
    have hkind := kind_front_of_mem_code hname
    rcases List.mem_append.1 hother with hstored | hroutine
    · rcases List.mem_map.1 hstored with ⟨l, hl, rfl⟩
      rcases mem_storageLabels_iff.1 hl with ⟨s, -, rfl⟩ | ⟨k, -, rfl⟩ | rfl <;> cases hkind
    · rw [(front_of_mem_routineNames name hroutine).1] at hkind
      cases hkind

/-- Every use of a text in the code takes the label under which the text is stored. -/
theorem holds_code (h : checked.WellFormed) :
    Holds checked.image.pool (literalUses checked.image.code) checked.program.texts :=
  holds_lowerLines h.sound {}

/-- Each index is that of a text. -/
theorem Holds.lt_size {pool : LiteralPool} {indices : List Nat} {texts : List String}
    (h : Holds pool indices texts) : ∀ k ∈ indices, k < pool.size := by
  induction h with
  | nil => simp
  | cons hfirst _ ih =>
    exact List.forall_mem_cons.2 ⟨(List.getElem?_eq_some_iff.1 hfirst).1, ih⟩

/-- What is available is defined. -/
theorem mem_definedNames_of_available (h : checked.WellFormed) {l : Label}
    (hl : l ∈ mentioned checked.image.code)
    (havailable : Available checked.scope checked.program l) :
    ⟨none, l⟩ ∈ definedNames none checked.image.listing := by
  rw [mem_definedNames_listing h]
  cases l with
  | line n =>
    rcases List.mem_map.1 havailable with ⟨line, hline, rfl⟩
    exact .inl (mem_definedNames_line hline _ _)
  | var x =>
    rcases List.mem_map.1 havailable with ⟨s, hs, rfl⟩
    exact .inr (.inl ⟨_, mem_storageLabels_iff.2 (.inl ⟨s, hs, rfl⟩), rfl⟩)
  | literal k =>
    have huse : k ∈ literalUses checked.image.code := List.mem_filterMap.2 ⟨_, hl, rfl⟩
    have hstored : k < checked.image.pool.size := (holds_code h).lt_size k huse
    exact .inr (.inl ⟨_, mem_storageLabels_iff.2 (.inr (.inl ⟨k, hstored, rfl⟩)), rfl⟩)
  | scratch => exact .inr (.inl ⟨_, mem_storageLabels_iff.2 (.inr (.inr rfl)), rfl⟩)
  | routine r =>
    have hroutines : ∀ r ∈ allRoutines, ⟨none, .routine r⟩ ∈ routineNames := by decide +kernel
    refine .inr (.inr (hroutines r ?_))
    cases r <;> decide
  | message r => cases havailable
  | inner s => cases havailable

/-- Every reference is to a full name that is defined. -/
theorem references_subset (h : checked.WellFormed) :
    references none checked.image.listing ⊆ definedNames none checked.image.listing := by
  have hpreamble : references none preamble = [] := rfl
  have howner : ownerBehind none preamble = none := rfl
  have hroutines : ∀ name ∈ references (some .scratch) routines, name ∈ routineNames := by
    decide +kernel
  intro name hname
  rw [Image.listing_eq_storage, references_append, hpreamble, howner, List.nil_append,
    references_append, references_append, ownerBehind_storage, List.mem_append,
    List.mem_append] at hname
  rcases hname with hcode | hstorage | hroutine
  · rcases references_lowerLines h.sound {} none hcode with hdefined | ⟨l, hl, havailable, rfl⟩
    · exact (mem_definedNames_listing h).2 (.inl hdefined)
    · exact mem_definedNames_of_available h hl havailable
  · rcases exists_of_mem_references hstorage with ⟨whose, l, hl, rfl⟩
    rw [mentioned_storage h.type_ne_void, List.mem_singleton] at hl
    subst hl
    have hexit : ⟨none, .routine .pcOutOfRange⟩ ∈ routineNames := by decide +kernel
    exact (mem_definedNames_listing h).2 (.inr (.inr hexit))
  · exact (mem_definedNames_listing h).2 (.inr (.inr (hroutines name hroutine)))

/-- The uses of texts in a listing are those in the code of the lines. -/
theorem literalUses_listing (h : checked.WellFormed) :
    literalUses checked.image.listing = literalUses checked.image.code := by
  have hpreamble : literalUses preamble = [] := rfl
  have hstorage : literalUses checked.image.storage = [] := by
    rw [literalUses, mentioned_storage h.type_ne_void]
    rfl
  have hroutines : literalUses routines = [] := by decide +kernel
  rw [Image.listing_eq_storage, literalUses_append, literalUses_append, literalUses_append,
    hpreamble, hstorage, hroutines]
  simp

/-- A text of the program is stored under its index. -/
theorem storage_mem_listing {k : Nat} {content : String}
    (h : checked.image.pool.texts[k]? = some content) :
    .storage (.literal k) (.text content) ∈ checked.image.listing := by
  have hmem : .storage (.literal k) (.text content) ∈ checked.image.pool.listing := by
    rw [LiteralPool.listing, storageFrom_eq]
    exact List.mem_map.2 ⟨(content, k), List.mem_zipIdx_iff_getElem?.2 h, rfl⟩
  rw [Image.listing_eq_storage, Image.storage]
  simp only [List.mem_append]
  exact .inr (.inr (.inl (.inl (.inr hmem))))

/-! ### Spelling -/

/-- What the routines define is legible. -/
theorem legible_of_mem_routineNames {name : FullName} (h : name ∈ routineNames) :
    name.Legible := by
  have hform : ∀ name ∈ routineNames,
      name.front.kind = 4 ∧ (name.owner = none ∨ name.label.kind = 3) := by decide +kernel
  rcases hform name h with ⟨hfront, hlabel⟩
  rcases name with ⟨owner, l⟩
  cases owner with
  | none => exact .outer (Label.legible_of_kind hfront).1 (Label.legible_of_kind hfront).2
  | some o =>
    rcases hlabel with hnone | hinner
    · cases hnone
    · cases l <;> cases hinner
      exact .inner (Label.legible_of_kind hfront).1 (Label.legible_of_kind hfront).2

/-- Labels of a program are legible if its numbers and names are. -/
theorem Available.legible (hspelled : checked.program.Spelled)
    (hsymbols : checked.scope.symbols = declarations checked.program.lines) {l : Label}
    (h : Available checked.scope checked.program l) : l.Legible := by
  cases l with
  | line n =>
    rcases List.mem_map.1 h with ⟨line, hline, rfl⟩
    exact hspelled.number_nonneg line hline
  | var x =>
    rcases List.mem_map.1 h with ⟨s, hs, rfl⟩
    exact hspelled.isAlphanum s (hsymbols ▸ hs)
  | _ => trivial

/-- All of a listing can be read. -/
theorem readable_of_mem_listing (h : checked.WellFormed) (hspelled : checked.program.Spelled)
    (hsymbols : checked.scope.symbols = declarations checked.program.lines) :
    ∀ i ∈ checked.image.listing, i.Readable := by
  have hfixed : ∀ i ∈ preamble ++ routines, i.Readable := by decide +kernel
  have hlegible : ∀ l, Available checked.scope checked.program l → l.Legible :=
    fun l => Available.legible hspelled hsymbols
  have hcode : ∀ i ∈ checked.image.code, i.Readable :=
    readable_of_mem_lowerLines h.sound hlegible (fun _ hline => hline) {}
  have hvariables : ∀ i ∈ variableListing checked.image.symbols, i.Readable := by
    intro i hi
    rw [variableListing_eq h.type_ne_void] at hi
    rcases List.mem_map.1 hi with ⟨s, hs, rfl⟩
    refine ⟨hspelled.isAlphanum s (hsymbols ▸ hs), ?_⟩
    split <;> decide
  have htexts : ∀ i ∈ checked.image.pool.listing, i.Readable := by
    intro i hi
    rw [LiteralPool.listing, storageFrom_eq] at hi
    rcases List.mem_map.1 hi with ⟨⟨content, k⟩, hp, rfl⟩
    have hused : content ∈ checked.program.texts := by
      have hmem : content ∈ checked.image.pool.texts := List.fst_mem_of_mem_zipIdx hp
      have hpool : checked.image.pool = LiteralPool.absorb {} checked.program.texts :=
        pool_lowerLines checked.scope checked.program.lines {}
      rw [hpool] at hmem
      exact ((firstOccurrences_absorb _).mem_iff content).1 hmem
    refine ⟨trivial, fun hline => ?_⟩
    have hcontent : '\n' ∈ content.toList := by
      simpa [Storage.render] using hline
    exact absurd (hspelled.isQuotable content hused _ hcontent) (by decide)
  have hexit : ∀ i ∈ [Item.blank, .instr (.jmp (.routine .pcOutOfRange)), .blank],
      i.Readable := by decide
  have hscratch : ∀ i ∈ [Item.blank, .storage .scratch (.zeroBytes stringSize)], i.Readable := by
    decide
  rw [Image.listing_eq_storage, Image.storage]
  simp only [List.forall_mem_append] at hfixed ⊢
  exact ⟨hfixed.1, hcode, ⟨⟨⟨⟨hexit, hvariables⟩, by decide⟩, htexts⟩, hscratch⟩, hfixed.2⟩

end Listing

end LineBasic
