import LineBasic.Proofs.Assembly.Names

/-!
# Reading listings

The text of a listing says what the listing says: each of its lines is one item, and is read as
defining the label that the item defines and mentioning the labels that its instruction takes.

Main definitions:

- `Item.mentioned`: the labels that the instruction of an item takes.
- `references`: the full names of all labels that instructions take.
- `Item.Legible`: items whose text is read as what they say.

Main results:

- `Instr.reads`: the names in an instruction are those of its labels.
- `definedSymbols_lines` and `mentionedSymbols_lines`: the names that are read in a listing.
-/

namespace LineBasic.Assembly

/-! ## Labels that instructions take -/

/-- The label in an operand. -/
def Operand.label? : Operand → Option Label
  | address l => some l
  | memory _ (.label l) => some l
  | _ => none

/-- The number that an operand is. -/
def Operand.constant? : Operand → Option Numeral
  | constant _ n => some n
  | _ => none

namespace Operand

@[simp] theorem label?_wordReg (r : WordReg) : (wordReg r).label? = none := rfl

@[simp] theorem label?_byteReg (r : ByteReg) : (byteReg r).label? = none := rfl

@[simp] theorem label?_constant (width : Option Width) (n : Numeral) :
    (constant width n).label? = none := rfl

@[simp] theorem label?_address (l : Label) : (address l).label? = some l := rfl

@[simp] theorem label?_memory (width : Option Width) (l : Label) :
    (memory width (.label l)).label? = some l := rfl

@[simp] theorem constant?_wordReg (r : WordReg) : (wordReg r).constant? = none := rfl

@[simp] theorem constant?_byteReg (r : ByteReg) : (byteReg r).constant? = none := rfl

@[simp] theorem constant?_constant (width : Option Width) (n : Numeral) :
    (constant width n).constant? = some n := rfl

@[simp] theorem constant?_address (l : Label) : (address l).constant? = none := rfl

@[simp] theorem constant?_memory (width : Option Width) (p : Place) :
    (memory width p).constant? = none := rfl

end Operand

namespace Instr

/-- The operands of an instruction. -/
def operands : Instr → List Operand
  | mov dst src => [dst, src]
  | add dst src => [dst, src]
  | sub dst src => [dst, src]
  | cmp lhs rhs => [lhs, rhs]
  | xor dst src => [dst, src]
  | xchg lhs rhs => [lhs, rhs]
  | push src => [src]
  | pop dst => [dst]
  | inc dst => [dst]
  | dec dst => [dst]
  | neg dst => [dst]
  | mul src => [src]
  | imul src => [src]
  | div src => [src]
  | idiv src => [src]
  | int n => [.constant none n]
  | jmp l => [.address l]
  | jump _ l => [.address l]
  | loop l => [.address l]
  | call l => [.address l]
  | _ => []

/-- The spelling of an instruction up to its operands. -/
def mnemonic : Instr → String
  | mov .. => "mov"
  | add .. => "add"
  | sub .. => "sub"
  | cmp .. => "cmp"
  | xor .. => "xor"
  | xchg .. => "xchg"
  | push _ => "push"
  | pop _ => "pop"
  | inc _ => "inc"
  | dec _ => "dec"
  | neg _ => "neg"
  | mul _ => "mul"
  | imul _ => "imul"
  | div _ => "div"
  | idiv _ => "idiv"
  | cwd => "cwd"
  | cld => "cld"
  | lodsb => "lodsb"
  | repMovsb => "rep movsb"
  | repStosb => "rep stosb"
  | int _ => "int"
  | jmp _ => "jmp"
  | jump cond _ => cond.mnemonic
  | loop _ => "loop"
  | call _ => "call"
  | ret => "ret"

/-- The labels in an instruction. -/
def labels (i : Instr) : List Label :=
  i.operands.filterMap Operand.label?

/-- The numbers in an instruction. -/
def constants (i : Instr) : List Numeral :=
  i.operands.filterMap Operand.constant?

end Instr

/-- The labels that the instruction of an item takes. -/
def Item.mentioned : Item → List Label
  | instr i => i.labels
  | noted i _ => i.labels
  | _ => []

/-- The labels that the instructions of items take. -/
def mentioned (items : List Item) : List Label :=
  items.flatMap Item.mentioned

@[simp] theorem mentioned_append (xs ys : List Item) :
    mentioned (xs ++ ys) = mentioned xs ++ mentioned ys :=
  List.flatMap_append

@[simp] theorem mentioned_label (l : Label) (items : List Item) :
    mentioned (.label l :: items) = mentioned items := rfl

@[simp] theorem mentioned_blank (items : List Item) :
    mentioned (.blank :: items) = mentioned items := rfl

@[simp] theorem mentioned_code (instructions : List Instr) :
    mentioned (code instructions) = instructions.flatMap Instr.labels := by
  rw [mentioned, code, List.flatMap_map]
  rfl

/-- The full names that items define. -/
def definedNames (owner : Option Label) (items : List Item) : List FullName :=
  (definitions owner items).filterMap id

/-- The full names of the labels that the instructions of items take. -/
def references (owner : Option Label) : List Item → List FullName
  | [] => []
  | i :: rest => i.mentioned.map (fullName owner) ++ references (i.ownerBehind owner) rest

theorem definedNames_append (owner : Option Label) (xs ys : List Item) :
    definedNames owner (xs ++ ys) =
      definedNames owner xs ++ definedNames (ownerBehind owner xs) ys := by
  rw [definedNames, definitions_append, List.filterMap_append]
  rfl

theorem references_append (owner : Option Label) (xs ys : List Item) :
    references owner (xs ++ ys) =
      references owner xs ++ references (ownerBehind owner xs) ys := by
  induction xs generalizing owner with
  | nil => rfl
  | cons i rest ih => simp [references, ownerBehind, ih]

theorem mem_definedNames {owner : Option Label} {items : List Item} {name : FullName} :
    name ∈ definedNames owner items ↔ some name ∈ definitions owner items := by
  simp [definedNames]

/-- Items that define dot labels only define them for their owner. -/
theorem OnlyInner.definedNames_eq {items : List Item} (h : OnlyInner items)
    (owner : Option Label) :
    definedNames owner items = (spots items).map fun s => ⟨owner, .inner s⟩ := by
  induction items with
  | nil => rfl
  | cons i rest ih =>
    have hrest : OnlyInner rest := fun j hj => h j (List.mem_cons_of_mem _ hj)
    have hone : OnlyInner [i] := fun j hj => h j (List.mem_singleton.1 hj ▸ List.mem_cons_self)
    have hsame : ownerBehind owner [i] = owner := hone.ownerBehind_eq owner
    have hfirst : definedNames owner [i] = (spots [i]).map fun s => ⟨owner, .inner s⟩ := by
      cases hdefined : i.defined? with
      | none => simp [definedNames, definitions, spots, Item.spot?, hdefined]
      | some l =>
        rcases h i List.mem_cons_self l hdefined with ⟨s, rfl⟩
        simp [definedNames, definitions, spots, Item.spot?, hdefined, fullName]
    change definedNames owner ([i] ++ rest) = (spots ([i] ++ rest)).map _
    rw [definedNames_append, hsame, hfirst, ih hrest, spots_append, List.map_append]

/-- Items that define no dot labels define the same wherever they stand. -/
theorem definedNames_eq_of_outer {items : List Item}
    (h : ∀ i ∈ items, ∀ s, i.defined? ≠ some (.inner s)) (owner : Option Label) :
    definedNames owner items = (items.filterMap Item.defined?).map fun l => ⟨none, l⟩ := by
  induction items generalizing owner with
  | nil => rfl
  | cons i rest ih =>
    rcases List.forall_mem_cons.1 h with ⟨hfirst, hrest⟩
    have hlater := ih hrest (i.ownerBehind owner)
    rw [definedNames, definitions]
    cases hdefined : i.defined? with
    | none => simpa [definedNames, hdefined] using hlater
    | some l =>
      have hname : fullName owner l = ⟨none, l⟩ :=
        fullName_of_ne_inner (fun s heq => hfirst s (heq ▸ hdefined)) owner
      simpa [definedNames, hdefined, hname] using hlater

/-- Between items that define dot labels only, the owner of dot labels is the same. -/
theorem OnlyInner.references_eq {items : List Item} (h : OnlyInner items)
    (owner : Option Label) : references owner items = (mentioned items).map (fullName owner) := by
  induction items with
  | nil => rfl
  | cons i rest ih =>
    have hrest : OnlyInner rest := fun j hj => h j (List.mem_cons_of_mem _ hj)
    have hone : OnlyInner [i] := fun j hj => h j (List.mem_singleton.1 hj ▸ List.mem_cons_self)
    have hsame : i.ownerBehind owner = owner := hone.ownerBehind_eq owner
    rw [references, hsame, ih hrest, ← List.map_append]
    rfl

/-- What is referred to is a label that some instruction takes. -/
theorem exists_of_mem_references {owner : Option Label} {items : List Item} {name : FullName}
    (h : name ∈ references owner items) :
    ∃ whose, ∃ l ∈ mentioned items, name = fullName whose l := by
  induction items generalizing owner with
  | nil => cases h
  | cons i rest ih =>
    rcases List.mem_append.1 h with hfirst | hlater
    · rcases List.mem_map.1 hfirst with ⟨l, hl, rfl⟩
      exact ⟨owner, l, List.mem_append_left _ hl, rfl⟩
    · rcases ih hlater with ⟨whose, l, hl, rfl⟩
      exact ⟨whose, l, List.mem_append_right _ hl, rfl⟩

/-! ## Operands and instructions -/

/-- Whole numbers mention nothing. -/
theorem reads_toString (n : Int) : Reads (toString n).toList [] := by
  have hdigits (k : Nat) : Reads (toString k).toList [] := by
    have hword := Reads.word fun c (hc : c ∈ (toString k).toList) => by
      rw [isWordChar, isSymbolChar, isNameChar_of_isDigit (isDigit_of_mem_toString hc)]
      rfl
    have hnumber : isName (toString k).toList = false := by
      cases hcs : (toString k).toList with
      | nil => rfl
      | cons c rest =>
        have hdigit := isDigit_of_mem_toString (hcs ▸ List.mem_cons_self : c ∈ (toString k).toList)
        rw [isName, hdigit]
        rfl
    rwa [hnumber, if_neg (by decide)] at hword
  cases n with
  | ofNat k => exact hdigits k
  | negSucc k =>
    change Reads ("-" ++ toString (k + 1)).toList []
    rw [String.toList_append]
    exact (hdigits (k + 1)).cons (by decide)

namespace Operand

/-- The only name in an operand is that of its label. -/
theorem reads {o : Operand} (hlabel : ∀ l, o.label? = some l → l.Legible)
    (hconstant : ∀ n, o.constant? = some n → Reads n.render.toList []) :
    Reads o.render.toList (o.label?.toList.map fun l => l.render.toList) := by
  have hwidth {cs : List Char} {names : List (List Char)} (width : Option Width)
      (hcs : Reads cs names) : Reads ((renderWidth width).toList ++ cs) names := by
    cases width with
    | none => exact hcs
    | some w =>
      have hspelling : Reads w.spelling.toList [] := by cases w <;> decide
      have hall := hspelling.append_cons (c := ' ') (by decide) hcs
      simpa [renderWidth] using hall
  cases o with
  | wordReg r => cases r <;> decide
  | byteReg r => cases r <;> decide
  | constant width n =>
    have hall := hwidth width (hconstant n rfl)
    rwa [← String.toList_append] at hall
  | address l => exact Label.reads (hlabel l rfl)
  | memory width p =>
    have hplace : Reads p.render.toList
        ((memory width p).label?.toList.map fun l => l.render.toList) := by
      cases p with
      | label l => exact Label.reads (hlabel l rfl)
      | di => exact (by decide : Reads (Place.render .di).toList [])
      | bxPlusDi => exact (by decide : Reads (Place.render .bxPlusDi).toList [])
    have hclose := hplace.append_cons (c := ']') (by decide) (by decide : Reads [] [])
    have hall := hwidth width (hclose.cons (c := '[') (by decide))
    simpa [render] using hall

end Operand

namespace Instr

/-- An instruction is spelled by its mnemonic and its operands. -/
theorem render_eq (i : Instr) :
    i.render =
      match i.operands with
      | [] => i.mnemonic
      | [a] => unary i.mnemonic a
      | a :: b :: _ => binary i.mnemonic a b := by
  cases i <;> rfl

/-- Mnemonics mention nothing. -/
theorem reads_mnemonic (i : Instr) : Reads i.mnemonic.toList [] := by
  cases i with
  | jump cond l =>
    rw [mnemonic]
    cases cond <;> decide
  | _ =>
    rw [mnemonic]
    decide

/-- The labels of an instruction are legible, and its numbers are read as numbers. -/
structure Readable (i : Instr) : Prop where
  labels : ∀ l ∈ i.labels, l.Legible
  constants : ∀ n ∈ i.constants, Reads n.render.toList []

instance (i : Instr) : Decidable i.Readable :=
  decidable_of_iff ((∀ l ∈ i.labels, l.Legible) ∧ ∀ n ∈ i.constants, Reads n.render.toList [])
    ⟨fun h => ⟨h.1, h.2⟩, fun h => ⟨h.labels, h.constants⟩⟩

/-- The names in an instruction are those of its labels. -/
theorem Readable.reads {i : Instr} (h : i.Readable) :
    Reads i.render.toList (i.labels.map fun l => l.render.toList) := by
  have hoperand : ∀ o ∈ i.operands,
      Reads o.render.toList (o.label?.toList.map fun l => l.render.toList) := by
    intro o ho
    refine Operand.reads (fun l hl => h.labels l ?_) fun n hn => h.constants n ?_
    · exact List.mem_filterMap.2 ⟨o, ho, hl⟩
    · exact List.mem_filterMap.2 ⟨o, ho, hn⟩
  have hmnemonic := i.reads_mnemonic
  have htwo : i.operands.length ≤ 2 := by cases i <;> simp [operands]
  rw [render_eq, Instr.labels]
  generalize i.mnemonic = word at hmnemonic
  generalize i.operands = operands at hoperand htwo
  match operands with
  | [] => exact hmnemonic
  | [a] =>
    have ha := hoperand a (by simp)
    have hall := hmnemonic.append_cons (c := ' ') (by decide) ha
    cases hlabel : a.label? <;> simpa [unary, hlabel] using hall
  | [a, b] =>
    have ha := hoperand a (by simp)
    have hb := hoperand b (by simp)
    have hall := hmnemonic.append_cons (c := ' ') (by decide)
      (ha.append_cons (c := ',') (by decide) hb)
    cases hleft : a.label? <;> cases hright : b.label? <;>
      simpa [binary, hleft, hright] using hall
  | _ :: _ :: _ :: _ => simp at htwo

end Instr

/-! ## Items -/

/-- Items whose text is read as what they say. -/
structure Item.Legible (i : Item) : Prop where
  one_line : '\n' ∉ i.render.toList
  defined_eq : definedName? i.render.toList = i.defined?.map fun l => l.render.toList
  mentioned_eq : mentionedNames i.render.toList = i.mentioned.map fun l => l.render.toList

/-- A colon ends the name that a line defines. -/
theorem definedName?_append_colon {w : List Char} (h : ∀ c ∈ w, isSymbolChar c = true)
    (rest : List Char) : definedName? (w ++ ':' :: rest) = some w := by
  have hcolon : isSymbolChar ':' = false := by decide
  rw [definedName?, List.dropWhile_append_of_pos h, List.takeWhile_append_of_pos h]
  simp [hcolon]

/-- Only instructions mention names. -/
theorem mentionedNames_of_ne {line : List Char} (h : ∀ rest, line ≠ '\t' :: rest) :
    mentionedNames line = [] := by
  rw [mentionedNames]
  exact h

namespace Item

/-- What stands behind a tab is read up to a note. -/
theorem legible_of_tab {i : Item} {cs note : List Char} {names : List (List Char)}
    (hrender : i.render.toList = '\t' :: (cs ++ note)) (hcs : Reads cs names)
    (hnote : ∀ c ∈ note.head?, c = ';') (hline : '\n' ∉ note) (hdefined : i.defined? = none)
    (hmentioned : (i.mentioned.map fun l => l.render.toList) = names) : i.Legible where
  one_line := by
    rw [hrender, List.mem_cons, List.mem_append]
    rintro (heq | hmem | hmem)
    · cases heq
    · exact (hcs.plain _ hmem).2 rfl
    · exact hline hmem
  defined_eq := by
    rw [hrender, hdefined]
    rfl
  mentioned_eq := by rw [hrender, mentionedNames_tab hcs hnote, hmentioned]

/-- Instructions whose parts can be read are legible. -/
theorem legible_instr {i : Instr} (h : i.Readable) : (instr i).Legible := by
  have hrender : (instr i).render.toList = '\t' :: (i.render.toList ++ []) := by simp [render]
  exact legible_of_tab hrender h.reads (by simp) (by simp) rfl rfl

/-- Notes do not matter. -/
theorem legible_noted {i : Instr} (h : i.Readable) {note : String}
    (hnote : '\n' ∉ note.toList) : (noted i note).Legible := by
  have hgap : ∀ c ∈ (noteGap i.render).toList, isWordChar c = false ∧ c ≠ ';' ∧ c ≠ '\n' := by
    intro c hc
    rw [noteGap, String.toList_ofList] at hc
    rw [List.eq_of_mem_replicate hc]
    decide
  have hrender : (noted i note).render.toList =
      '\t' :: ((i.render.toList ++ (noteGap i.render).toList) ++ ';' :: ' ' :: note.toList) := by
    simp [render]
  exact legible_of_tab hrender (h.reads.append_gap hgap) (by simp) (by simpa using hnote) rfl rfl

/-- Directives mention nothing. -/
theorem legible_directive {d : Directive} (h : Reads d.render.toList []) :
    (directive d).Legible := by
  have hrender : (directive d).render.toList = '\t' :: (d.render.toList ++ []) := by
    simp [render]
  exact legible_of_tab hrender h (by simp) (by simp) rfl rfl

/-- Comments define and mention nothing. -/
theorem legible_comment {text : String} (h : '\n' ∉ text.toList) : (comment text).Legible where
  one_line := by simpa [render] using h
  defined_eq := by
    rw [render, String.toList_append]
    rfl
  mentioned_eq := mentionedNames_of_ne fun rest heq => by simp [render] at heq

/-- What begins with a legible label and a colon defines the label, and mentions nothing. -/
theorem legible_of_colon {i : Item} {l : Label} {behind : List Char} (hl : l.Legible)
    (hrender : i.render.toList = l.render.toList ++ ':' :: behind) (hbehind : '\n' ∉ behind)
    (hdefined : i.defined? = some l) (hmentioned : i.mentioned = []) : i.Legible where
  one_line := by
    rw [hrender, List.mem_append, List.mem_cons]
    rintro (hlabel | heq | hmem)
    · exact absurd (hl.isSymbolChar _ hlabel) (by decide)
    · cases heq
    · exact hbehind hmem
  defined_eq := by
    rw [hrender, definedName?_append_colon hl.isSymbolChar, hdefined]
    rfl
  mentioned_eq := by
    rw [hmentioned, hrender]
    refine mentionedNames_of_ne fun rest heq => ?_
    cases hcs : l.render.toList with
    | nil =>
      rw [hcs] at heq
      cases heq
    | cons c w =>
      have hc := hl.isSymbolChar c (by rw [hcs]; exact List.mem_cons_self)
      rw [hcs] at heq
      cases heq
      revert hc
      decide

/-- Legible labels are read. -/
theorem legible_label {l : Label} (h : l.Legible) : (label l).Legible :=
  legible_of_colon h (by simp [render]) (List.not_mem_nil) rfl rfl

/-- Storage under a legible label is read. -/
theorem legible_storage {l : Label} (h : l.Legible) {s : Storage}
    (hs : '\n' ∉ s.render.toList) : (storage l s).Legible := by
  have hrender : (storage l s).render.toList =
      l.render.toList ++ ':' :: ' ' :: s.render.toList := by simp [render]
  exact legible_of_colon h hrender (by simpa using hs) rfl rfl

end Item

/-- Items whose parts can be read. -/
def Item.Readable : Item → Prop
  | blank => True
  | comment text => '\n' ∉ text.toList
  | directive d => Reads d.render.toList []
  | label l => l.Legible
  | instr i => i.Readable
  | noted i note => i.Readable ∧ '\n' ∉ note.toList
  | storage l s => l.Legible ∧ '\n' ∉ s.render.toList

instance : DecidablePred Item.Readable
  | .blank => isTrue trivial
  | .comment text => inferInstanceAs (Decidable ('\n' ∉ text.toList))
  | .directive d => inferInstanceAs (Decidable (Reads d.render.toList []))
  | .label l => inferInstanceAs (Decidable l.Legible)
  | .instr i => inferInstanceAs (Decidable i.Readable)
  | .noted i note => inferInstanceAs (Decidable (i.Readable ∧ '\n' ∉ note.toList))
  | .storage l s => inferInstanceAs (Decidable (l.Legible ∧ '\n' ∉ s.render.toList))

/-- Items whose parts can be read are legible. -/
theorem Item.Readable.legible {i : Item} (h : i.Readable) : i.Legible := by
  cases i with
  | blank => exact ⟨by decide, rfl, rfl⟩
  | comment text => exact legible_comment h
  | directive d => exact legible_directive h
  | label l => exact legible_label h
  | instr i => exact legible_instr h
  | noted i note => exact legible_noted h.1 h.2
  | storage l s => exact legible_storage h.1 h.2

/-! ## Listings -/

/-- The names that lines mention are those of the labels that instructions take. -/
theorem flatMap_mentionedNames {listing : List Item} (h : ∀ i ∈ listing, i.Legible) :
    ((listing.map fun i : Item => i.render.toList) ++ [[]]).flatMap mentionedNames =
      (mentioned listing).map fun l => l.render.toList := by
  induction listing with
  | nil => rfl
  | cons i rest ih =>
    rcases List.forall_mem_cons.1 h with ⟨hfirst, hrest⟩
    rw [List.map_cons, List.cons_append, List.flatMap_cons, ih hrest, hfirst.mentioned_eq,
      ← List.map_append]
    rfl

/-- The text of an item is read as changing the owner as the item does. -/
theorem symbolOwner_render {i : Item} (h : i.Legible) (owner : Option Label) :
    symbolOwner (spelledOwner owner) i.render.toList = spelledOwner (i.ownerBehind owner) := by
  rw [symbolOwner, h.defined_eq, Item.ownerBehind]
  cases hdefined : i.defined? with
  | none => rfl
  | some l =>
    by_cases hinner : ∃ s, l = .inner s
    · rcases hinner with ⟨s, rfl⟩
      simp [Label.render]
    · have hname : (Option.map (fun l => l.render.toList) (some l)) = some l.render.toList := rfl
      rw [hname]
      split
      · contradiction
      · rename_i heq
        exact absurd (Option.some.inj heq) (Label.render_ne_dot (not_exists.1 hinner) _)
      · rename_i w heq
        cases heq
        cases l with
        | inner s => exact absurd ⟨s, rfl⟩ hinner
        | _ => rfl

/-- The names that are read as defined in a listing. -/
theorem definedSymbols_lines {listing : List Item} (h : ∀ i ∈ listing, i.Legible)
    (owner : Option Label) :
    definedSymbols (spelledOwner owner) ((listing.map fun i => i.render.toList) ++ [[]]) =
      (definedNames owner listing).map FullName.spelled := by
  induction listing generalizing owner with
  | nil => rfl
  | cons i rest ih =>
    rcases List.forall_mem_cons.1 h with ⟨hfirst, hrest⟩
    rw [List.map_cons, List.cons_append, definedSymbols, symbolOwner_render hfirst, ih hrest,
      hfirst.defined_eq, definedNames, definedNames, definitions]
    cases i.defined? with
    | none => rfl
    | some l => simp [fullSymbol_render]

/-- The names that are read as mentioned in a listing. -/
theorem mentionedSymbols_lines {listing : List Item} (h : ∀ i ∈ listing, i.Legible)
    (owner : Option Label) :
    mentionedSymbols (spelledOwner owner) ((listing.map fun i => i.render.toList) ++ [[]]) =
      (references owner listing).map FullName.spelled := by
  induction listing generalizing owner with
  | nil => rfl
  | cons i rest ih =>
    rcases List.forall_mem_cons.1 h with ⟨hfirst, hrest⟩
    rw [List.map_cons, List.cons_append, mentionedSymbols, symbolOwner_render hfirst, ih hrest,
      hfirst.mentioned_eq, references, List.map_append, List.map_map, List.map_map]
    congr 2
    funext l
    exact fullSymbol_render owner l

end LineBasic.Assembly
