import LineBasic.Proofs.Lowering.AssemblyText
import LineBasic.Proofs.Lowering.PrintCalls

/-!
# Cells and buffers are never mixed up

A number is kept in a cell of two bytes and a text in a buffer of thirty-two.  In generated code,
whatever writes thirty-two bytes writes to the buffer of a text variable, whatever stores a word
stores it in the cell of a number variable, and every item is printed by the routine for its type.

Main definitions:

- `IsBuffer` and `IsCell`: the storage of variables in a listing.
- `KeepsTypes`: code that writes and prints according to types.

Main results:

- `keepsTypesBehind_of_split`: every instruction of a program keeps to types.
- `exists_keepsTypes`: every program that is accepted has code that keeps to types.
-/

namespace LineBasic

open Assembly

/-! ## Programs -/

/-- In a listing, a label has some storage and no other. -/
def StoredAs (listing : List Item) (l : Label) (stored : Storage) : Prop :=
  ∀ s, .storage l s ∈ listing ↔ s = stored

/-- A name is that of a text variable, which has a buffer of thirty-two bytes. -/
structure IsBuffer (checked : Checked) (image : Image) (x : String) : Prop where
  declared : ⟨x, .string⟩ ∈ checked.scope.symbols
  stored : StoredAs image.listing (.var x) (.zeroBytes 32)

/-- A name is that of a number variable, which has a cell of one word. -/
structure IsCell (checked : Checked) (image : Image) (x : String) : Prop where
  declared : ⟨x, .integer⟩ ∈ checked.scope.symbols
  stored : StoredAs image.listing (.var x) .zeroWord

/-- A label is that of a text of the pool or of a text variable. -/
def IsTextSource (checked : Checked) (image : Image) (l : Label) : Prop :=
  (∃ k content, l = .literal k ∧ .storage l (.text content) ∈ image.listing) ∨
    ∃ x, l = .var x ∧ IsBuffer checked image x

/-- An instruction of a program writes and prints according to types, if `front` is what stands in
front of it.  Whatever it takes from registers is put there directly in front of it. -/
def KeepsTypesBehind (checked : Checked) (image : Image) (front : List Item) : Instr → Prop
  -- texts are copied as a whole, from the pool or a text variable to a text variable
  | .repMovsb => ∃ src x,
    code [.mov .si (.address src), .mov .di (.address (.var x)), .mov .cx (.dec 32)] <:+ front ∧
      IsTextSource checked image src ∧ IsBuffer checked image x
  -- what is filled with zeros is a text variable
  | .repStosb => ∃ x,
    code [.mov .di (.address (.var x)), .mov .cx (.dec 32), .xor .al .al] <:+ front ∧
      IsBuffer checked image x
  -- lines are read into a text variable, or into the buffer for lines
  | .call (.routine .readString) => ∃ l,
    code [.mov .cx (.dec 32), .mov .dx (.address l)] <:+ front ∧
      (l = .scratch ∨ ∃ x, l = .var x ∧ IsBuffer checked image x)
  -- a line that is read as a number gives it to a number variable
  | .call (.routine .stringToNumber) => ∃ x,
    code [.mov .cx (.address (.var x)), .mov .dx (.address .scratch)] <:+ front ∧
      IsCell checked image x
  -- what is printed as a text is from the pool or a text variable
  | .call (.routine .printString) => ∃ src,
    code [.mov .dx (.address src)] <:+ front ∧ IsTextSource checked image src
  -- what is printed as a number is a constant, a number variable or a result
  | .call (.routine .printNumber) => ∃ i, code [i] <:+ front ∧
    ((∃ n, i = .mov .dx (.dec n)) ∨ (∃ x, i = .mov .dx (.cell (.var x)) ∧
      IsCell checked image x) ∨ i = .pop .dx)
  -- what any other instruction stores is a word, in a number variable
  | i => ∀ width place, .memory width place ∈ i.targets →
    ∃ x, StoresWord i (.var x) ∧ IsCell checked image x

/-- The code of a program writes and prints according to types. -/
structure KeepsTypes (checked : Checked) (image : Image) : Prop where
  /-- Each instruction does. -/
  written : ∀ front item behind i, image.body = front ++ item :: behind →
    item.instr? = some i → KeepsTypesBehind checked image front i
  /-- Each item of the program is printed as a text exactly if its type is that of texts. -/
  printed : printCalls image.body =
    (checked.program.lines.flatMap fun line => line.stmt.printed).map fun e =>
      if e.type checked.scope = .ok .string then .printString else .printNumber

section Programs

variable {checked : Checked}

/-- A variable has the storage of its type only. -/
theorem storedAs_var (h : checked.WellFormed) {s : Symbol} (hs : s ∈ checked.scope.symbols) :
    StoredAs checked.image.listing (.var s.name)
      (if s.type = .integer then .zeroWord else .zeroBytes 32) := by
  intro stored
  have hvariable : Item.storage (.var s.name) stored ∈ checked.image.listing ↔
      Item.storage (.var s.name) stored ∈ variableListing checked.image.symbols := by
    rw [← filter_isVariableItem_listing h, List.mem_filter]
    exact (and_iff_left rfl).symm
  rw [hvariable, variableListing_eq h.type_ne_void, List.mem_map]
  constructor
  · rintro ⟨t, ht, heq⟩
    injection heq with hlabel hstored
    obtain rfl := Scope.eq_of_name_eq h.isGlobal.nodup ht hs (Label.var.inj hlabel)
    exact hstored.symm
  · rintro rfl
    exact ⟨s, hs, rfl⟩

theorem isBuffer_of_mem (h : checked.WellFormed) {x : String}
    (hx : ⟨x, .string⟩ ∈ checked.scope.symbols) : IsBuffer checked checked.image x :=
  ⟨hx, storedAs_var h hx⟩

theorem isCell_of_mem (h : checked.WellFormed) {x : String}
    (hx : ⟨x, .integer⟩ ∈ checked.scope.symbols) : IsCell checked checked.image x :=
  ⟨hx, storedAs_var h hx⟩

/-- Between the code of the lines and the routines there is only a jump. -/
theorem isPlainCode_storage (h : checked.WellFormed) : IsPlainCode checked.image.storage := by
  intro item hitem i hinstr
  have hlabels : ∀ item ∈ checked.image.storage, item.instr? = some i →
      i = .jmp (.routine .pcOutOfRange) := by
    rw [Image.storage, variableListing_eq h.type_ne_void, LiteralPool.listing, storageFrom_eq]
    simp only [List.forall_mem_append, List.forall_mem_map]
    simp [Item.instr?, eq_comm]
  rw [hlabels item hitem hinstr]
  rfl

/-- The part of the listing that an image adds is its code and storage. -/
theorem Image.body_eq (image : Image) : image.body = image.code ++ image.storage := by
  simp only [Image.body, Image.storage, List.append_assoc]

/-- What a program adds to a listing is prepared. -/
theorem prepared_body (h : checked.WellFormed) :
    Prepared checked.scope.symbols checked.image.body := by
  rw [Image.body_eq]
  have hlines := prepared_lowerLines h.isGlobal
    (fun line hline => ⟨h.canonical line hline, h.typed line hline⟩) {}
  exact Prepared.append hlines (.of_plain (isPlainCode_storage h))

/-- A label of a text that an instruction of the code takes is stored. -/
theorem isTextSource_of_mem (h : checked.WellFormed) {l : Label}
    (hl : IsTextLabel checked.scope.symbols l) {i : Instr} (hi : .instr i ∈ checked.image.body)
    (hlabel : l ∈ i.labels) : IsTextSource checked checked.image l := by
  cases hl with
  | var hx => exact .inr ⟨_, rfl, isBuffer_of_mem h hx⟩
  | literal k =>
    have huse : k ∈ literalUses checked.image.listing := by
      refine List.mem_filterMap.2 ⟨.literal k, List.mem_flatMap.2 ⟨.instr i, ?_, hlabel⟩, rfl⟩
      exact List.mem_append_left _ (List.mem_append_right _ hi)
    rw [literalUses_listing h] at huse
    have hget := List.getElem?_eq_getElem ((holds_code h).lt_size k huse)
    exact .inl ⟨k, _, rfl, storage_mem_listing hget⟩

/-- A plain instruction stores nothing in memory. -/
theorem Assembly.Instr.not_mem_targets_of_isPlain {i : Instr} (h : i.isPlain = true)
    (width : Option Width) (place : Place) : .memory width place ∉ i.targets := by
  unfold isPlain at h
  split at h
  · cases h
  · cases h
  · cases h
  · simp [targets]
  · intro hmem
    cases List.all_eq_true.1 h _ hmem

/-- Each instruction of a checked program writes and prints according to types. -/
theorem keepsTypesBehind_of_split (h : checked.WellFormed) {front behind : List Item}
    {item : Item} {i : Instr} (hbody : checked.image.body = front ++ item :: behind)
    (hinstr : item.instr? = some i) : KeepsTypesBehind checked checked.image front i := by
  rcases prepared_body h front behind item i hbody hinstr with ⟨setup, hprepares, hsuffix⟩
  -- what prepares an instruction is part of the code
  have hmem : ∀ j ∈ setup, .instr j ∈ checked.image.body := by
    intro j hj
    rw [hbody]
    exact List.mem_append_left _ (hsuffix.subset (List.mem_map_of_mem hj))
  cases hprepares with
  | copy hsrc hx =>
    have hsource := isTextSource_of_mem h hsrc (hmem _ List.mem_cons_self) List.mem_cons_self
    exact ⟨_, _, hsuffix, hsource, isBuffer_of_mem h hx⟩
  | clear hx => exact ⟨_, hsuffix, isBuffer_of_mem h hx⟩
  | read hl =>
    exact ⟨_, hsuffix, hl.imp_right fun ⟨x, hlabel, hx⟩ => ⟨x, hlabel, isBuffer_of_mem h hx⟩⟩
  | convert hx => exact ⟨_, hsuffix, isCell_of_mem h hx⟩
  | printText hsrc =>
    have hsource := isTextSource_of_mem h hsrc (hmem _ List.mem_cons_self) List.mem_cons_self
    exact ⟨_, hsuffix, hsource⟩
  | printNumber hloads =>
    refine ⟨_, hsuffix, ?_⟩
    cases hloads with
    | constant n => exact .inl ⟨n, rfl⟩
    | cell hx => exact .inr (.inl ⟨_, rfl, isCell_of_mem h hx⟩)
    | popped => exact .inr (.inr rfl)
  | store hstores hx =>
    cases hstores with
    | constant => exact fun _ _ _ => ⟨_, .constant, isCell_of_mem h hx⟩
    | register => exact fun _ _ _ => ⟨_, .register, isCell_of_mem h hx⟩
    | popped => exact fun _ _ _ => ⟨_, .popped, isCell_of_mem h hx⟩
  | plain hplain =>
    unfold KeepsTypesBehind
    split
    any_goals cases hplain
    exact fun width place hmem => absurd hmem (Instr.not_mem_targets_of_isPlain hplain width place)

/-- The code of a checked program keeps to types. -/
theorem keepsTypes_image (h : checked.WellFormed) : KeepsTypes checked checked.image where
  written _ _ _ _ hbody hinstr := keepsTypesBehind_of_split h hbody hinstr
  printed := by
    rw [Image.body_eq, printCalls_append, (isPlainCode_storage h).printCalls_eq, List.append_nil]
    exact printCalls_lowerLines checked.scope checked.program.lines {}

end Programs

/-- Every program that is accepted has code, and this keeps to types: nothing is written to a
variable that has not its type, and each item is printed by the routine for its type. -/
theorem exists_keepsTypes {source : String} {checked : Checked} (h : check source = .ok checked) :
    ∃ image, assemble source = .ok image ∧ KeepsTypes checked image := by
  refine ⟨checked.image, ?_, keepsTypes_image (Checked.wellFormed_of_check h)⟩
  rw [assemble, h]
  rfl

/-- A program that resets, copies, reads, computes and prints variables of both types. -/
def greetings : String :=
  "1 STRING S, T\r\n2 INTEGER A\r\n3 INPUT T\r\n4 INPUT A\r\n5 LET S = T\r\n" ++
    "6 IF A > 0 THEN LET T = \"again\"\r\n7 LET A = A - 1\r\n8 PRINT S, A, \"!\", A * 2"

theorem keepsTypes_of_greetings :
    ∃ checked image, check greetings = .ok checked ∧ assemble greetings = .ok image ∧
      KeepsTypes checked image ∧
      printCalls image.body = [.printString, .printNumber, .printString, .printNumber] := by
  let checked : Checked :=
    ⟨⟨[⟨1, .declare .string ["S", "T"]⟩, ⟨2, .declare .integer ["A"]⟩, ⟨3, .input "T"⟩,
      ⟨4, .input "A"⟩, ⟨5, .assign "S" (.name "T")⟩,
      ⟨6, .cond (.name "A") .greater (.number 0) (.assign "T" (.text "again"))⟩,
      ⟨7, .assign "A" (.binary .sub (.name "A") (.number 1))⟩,
      ⟨8, .print [.name "S", .name "A", .text "!", .binary .mul (.name "A") (.number 2)]⟩]⟩,
      ⟨⟨"GLOBAL", [⟨"S", .string⟩, ⟨"T", .string⟩, ⟨"A", .integer⟩]⟩, []⟩⟩
  have hcheck : check greetings = .ok checked := by cbv
  rcases exists_keepsTypes hcheck with ⟨image, himage, hkeeps⟩
  refine ⟨checked, image, hcheck, himage, hkeeps, hkeeps.printed.trans ?_⟩
  decide

end LineBasic
