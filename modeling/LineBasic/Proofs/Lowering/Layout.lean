import LineBasic.Lowering.Image
import LineBasic.Proofs.Check.Numbering
import LineBasic.Proofs.Lowering.Shape
import LineBasic.Proofs.Processor.Basic

/-!
# The layout of listings

The code of the lines stands in the listing in their order, each line from its label to its end.
Line numbers are not used twice, so labels of lines mean these places, and dot labels of a line
mean places of this line.

Main definitions:

- `linePosition`: the place of the label of a line, or of what stands behind the last line.
- `lineBody`: the code of a line between its label and its end.

Main results:

- `resolve?_line`: the label of a line means the place where its code begins.
- `placed_lineBody`: the code of a line stands behind its label.
- `getElem?_linePosition_length`: behind the last line the program is left.
- `textAt?_literal` and `wordCells_var`: texts and variables have their storage.
-/

namespace LineBasic

open Assembly

/-! ## Lines -/

section Lines

variable (scope : Scope)

/-- The code of the lines in front of the one with an index. -/
def codeBefore (lines : List Line) (i : Nat) : List Item :=
  ((lowerLines scope (lines.take i)).run {}).1

/-- What the generation has numbered in front of the line with an index. -/
def stateBefore (lines : List Line) (i : Nat) : LoweringState :=
  ((lowerLines scope (lines.take i)).run {}).2

/-- The code of a line between its label and its end. -/
def lineBody (program : Program) (i : Nat) (line : Line) : List Item :=
  ((lowerStmt scope line.stmt).run (stateBefore scope program.lines i)).1

/-- The place of the label of the line with an index, or of what stands behind the last line. -/
def linePosition (program : Program) (i : Nat) : Nat :=
  preamble.length + (codeBefore scope program.lines i).length + 1

/-- The code of lines and of further lines. -/
theorem lowerLines_append (xs ys : List Line) (st : LoweringState) :
    (lowerLines scope (xs ++ ys)).run st =
      (((lowerLines scope xs).run st).1 ++
          ((lowerLines scope ys).run ((lowerLines scope xs).run st).2).1,
        ((lowerLines scope ys).run ((lowerLines scope xs).run st).2).2) := by
  induction xs generalizing st with
  | nil => rfl
  | cons line rest ih =>
    rw [List.cons_append, lowerLines, Lowering.run_bind, Lowering.run_bind, ih]
    rw [lowerLines, Lowering.run_bind, Lowering.run_bind]
    change (_ ++ (_ ++ _), _) = ((_ ++ _) ++ _, _)
    rw [List.append_assoc]
    rfl

variable {scope}

/-- The first lines of a program and the line behind them. -/
theorem take_succ_of_getElem? {lines : List Line} {i : Nat} {line : Line}
    (h : lines[i]? = some line) : lines.take (i + 1) = lines.take i ++ [line] := by
  rw [List.take_add_one, h]
  rfl

/-- The code of a line stands behind the code of the lines in front of it. -/
theorem codeBefore_succ {program : Program} {i : Nat} {line : Line}
    (h : program.lines[i]? = some line) :
    codeBefore scope program.lines (i + 1) =
      codeBefore scope program.lines i ++
        .blank :: .label (.line line.number) ::
          (lineBody scope program i line ++ [.label (.inner .lineEnd)]) := by
  unfold codeBefore
  rw [take_succ_of_getElem? h, lowerLines_append, lowerLines, Lowering.run_bind]
  change _ ++ (_ ++ []) = _
  rw [List.append_nil]
  rfl

/-- Each line takes its label, its end, and a blank line beside its body. -/
theorem linePosition_succ {program : Program} {i : Nat} {line : Line}
    (h : program.lines[i]? = some line) :
    linePosition scope program (i + 1) =
      linePosition scope program i + (lineBody scope program i line).length + 3 := by
  unfold linePosition
  rw [codeBefore_succ h]
  simp
  omega

variable (scope) in
/-- All lines are code before the place behind the last one. -/
theorem codeBefore_length (program : Program) :
    codeBefore scope program.lines program.lines.length = (Image.ofProgram scope program).code := by
  unfold codeBefore
  rw [List.take_length]
  rfl

variable (scope) in
/-- The code before a line begins the code of the program. -/
theorem exists_code_eq (program : Program) (i : Nat) :
    ∃ behind, (Image.ofProgram scope program).code =
      codeBefore scope program.lines i ++ behind := by
  refine ⟨((lowerLines scope (program.lines.drop i)).run
    (stateBefore scope program.lines i)).1, ?_⟩
  change ((lowerLines scope program.lines).run {}).1 = _
  conv => lhs; rw [← List.take_append_drop i program.lines]
  rw [lowerLines_append]
  rfl

end Lines

/-! ## Definitions in front of a line -/

section Definitions

variable {scope : Scope}

/-- The preamble defines no labels. -/
theorem not_mem_definitions_preamble (name : FullName) (owner : Option Label) :
    some name ∉ definitions owner preamble := by
  simp [preamble, definitions, Item.defined?]

/-- The code of lines defines their labels, and dot labels that belong to them. -/
theorem mem_definitions_lowerLines {lines : List Line} {st : LoweringState}
    {owner : Option Label} {name : FullName}
    (h : some name ∈ definitions owner ((lowerLines scope lines).run st).1) :
    ∃ line ∈ lines, name = ⟨none, .line line.number⟩ ∨
      ∃ s, name = ⟨some (.line line.number), .inner s⟩ := by
  induction lines generalizing st owner with
  | nil => cases h
  | cons line rest ih =>
    rw [lowerLines, Lowering.run_bind, Lowering.run_bind] at h
    have hsplit : some name ∈ definitions owner (((lowerLine scope line).run st).1 ++
        ((lowerLines scope rest).run ((lowerLine scope line).run st).2).1) := h
    rw [definitions_append] at hsplit
    rcases List.mem_append.1 hsplit with hhere | hlater
    · refine ⟨line, List.mem_cons_self, ?_⟩
      rcases exists_emits_lowerStmt scope line.stmt st with ⟨extra, -, hemits⟩
      have hblock : some name ∈ none :: some ⟨none, .line line.number⟩ ::
          definitions (some (.line line.number))
            (((lowerStmt scope line.stmt).run st).1 ++ [.label (.inner .lineEnd)]) := hhere
      simp only [List.mem_cons, reduceCtorEq, false_or] at hblock
      rcases hblock with heq | hbody
      · exact .inl (Option.some.inj heq)
      · rcases (hemits.append_inner .lineEnd).onlyInner.mem_definitions hbody with ⟨s, -, heq⟩
        exact .inr ⟨s, heq⟩
    · rcases ih hlater with ⟨other, hother, hname⟩
      exact ⟨other, List.mem_cons_of_mem _ hother, hname⟩

/-- In front of a line, nothing is defined under its number. -/
theorem not_mem_definitions_before {program : Program} (hnumbered : program.WellNumbered) {i : Nat}
    {line : Line} (h : program.lines[i]? = some line) {name : FullName}
    (hname : name = ⟨none, .line line.number⟩ ∨
      ∃ s, name = ⟨some (.line line.number), .inner s⟩) :
    some name ∉ definitions none
      (preamble ++ codeBefore scope program.lines i ++ [.blank]) := by
  rw [definitions_append, definitions_append]
  intro hmem
  rcases List.mem_append.1 hmem with hmem | hblank
  · rcases List.mem_append.1 hmem with hpreamble | hcode
    · exact not_mem_definitions_preamble name none hpreamble
    · rcases mem_definitions_lowerLines hcode with ⟨other, hother, hsame⟩
      rcases List.getElem?_of_mem hother with ⟨j, hj⟩
      have hlt : j < i := by
        have hbound := (List.getElem?_eq_some_iff.1 hj).1
        rw [List.length_take] at hbound
        omega
      rw [List.getElem?_take_of_lt hlt] at hj
      have hnumber : other.number = line.number := by
        rcases hname with rfl | ⟨s, rfl⟩
        · rcases hsame with heq | ⟨s', heq⟩
          · simpa [eq_comm] using heq
          · simp at heq
        · rcases hsame with heq | ⟨s', heq⟩
          · simp at heq
          · exact (by simpa using heq : line.number = other.number ∧ _).1.symm
      exact Nat.ne_of_lt hlt (hnumbered.eq_of_number_eq hj h hnumber)
  · simp [definitions, Item.defined?] at hblank

end Definitions

/-! ## The listing of a program -/

section Listing

variable {scope : Scope} {program : Program}

/-- What stands behind the code of the lines. -/
def Image.footer (image : Image) : List Item :=
  [.blank, .instr (.jmp (.routine .pcOutOfRange)), .blank] ++ variableListing image.symbols ++
    [.blank] ++ image.pool.listing ++ [.blank, .storage .scratch (.zeroBytes stringSize)] ++
    routines

/-- The listing is the preamble, the code of the lines, and what stands behind it. -/
theorem Image.listing_eq (image : Image) :
    image.listing = preamble ++ image.code ++ image.footer := by
  simp only [Image.listing, Image.body, Image.footer, List.append_assoc]

/-- A line in the listing. -/
theorem exists_listing_eq {i : Nat} {line : Line} (h : program.lines[i]? = some line) :
    ∃ behind, (Image.ofProgram scope program).listing =
      (preamble ++ codeBefore scope program.lines i ++ [.blank]) ++ .label (.line line.number) ::
        ((lineBody scope program i line ++ [.label (.inner .lineEnd)]) ++ behind) := by
  rcases exists_code_eq scope program (i + 1) with ⟨rest, hrest⟩
  refine ⟨rest ++ (Image.ofProgram scope program).footer, ?_⟩
  rw [Image.listing_eq, hrest, codeBefore_succ h]
  simp only [List.append_assoc, List.cons_append, List.nil_append]

/-- The label of a line means the place where its code begins. -/
theorem resolve?_line (hnumbered : program.WellNumbered) {i : Nat} {line : Line}
    (h : program.lines[i]? = some line) (q : Nat) :
    resolve? (Image.ofProgram scope program).listing q (.line line.number) =
      some (linePosition scope program i) := by
  rcases exists_listing_eq h with ⟨behind, hlisting⟩
  rw [resolve?_eq_of_not_mem hlisting rfl (not_mem_definitions_before hnumbered h (.inl rfl))]
  simp [linePosition]
  omega

/-- The label of a line stands where its code begins. -/
theorem getElem?_linePosition {i : Nat} {line : Line} (h : program.lines[i]? = some line) :
    (Image.ofProgram scope program).listing[linePosition scope program i]? =
      some (.label (.line line.number)) := by
  rcases exists_listing_eq h with ⟨behind, hlisting⟩
  have hlength : linePosition scope program i =
      (preamble ++ codeBefore scope program.lines i ++ [Item.blank]).length := by
    simp [linePosition]
    omega
  rw [hlisting, hlength, List.getElem?_append_right (Nat.le_refl _), Nat.sub_self]
  rfl

/-- The code of a line stands behind its label. -/
theorem placed_lineBody (hnumbered : program.WellNumbered) {i : Nat} {line : Line}
    (h : program.lines[i]? = some line) :
    Placed (Image.ofProgram scope program).listing (linePosition scope program i + 1)
      (lineBody scope program i line ++ [.label (.inner .lineEnd)]) := by
  rcases exists_listing_eq h with ⟨behind, hlisting⟩
  obtain ⟨extra, -, hemits⟩ :=
    exists_emits_lowerStmt scope line.stmt (stateBefore scope program.lines i)
  have hplaced := Placed.of_label hlisting (by simp)
    (fun s => not_mem_definitions_before hnumbered h (.inr ⟨s, rfl⟩))
    (hemits.append_inner .lineEnd).onlyInner (nodup_spots_lowerStmt scope line.stmt _)
  have hlength : (preamble ++ codeBefore scope program.lines i ++ [Item.blank]).length =
      linePosition scope program i := by
    simp [linePosition]
    omega
  rwa [hlength] at hplaced

/-- Behind the last line the program is left. -/
theorem getElem?_linePosition_length :
    (Image.ofProgram scope program).listing[linePosition scope program program.lines.length]? =
      some (.instr (.jmp (.routine .pcOutOfRange))) := by
  rw [Image.listing_eq, ← codeBefore_length, linePosition, Nat.add_assoc, List.append_assoc,
    List.getElem?_append_right (by omega), Nat.add_sub_cancel_left,
    List.getElem?_append_right (by omega), Nat.add_sub_cancel_left]
  rfl

/-- A blank line stands in front of each line, and behind the last one. -/
theorem getElem?_before_linePosition {i : Nat} (h : i ≤ program.lines.length) :
    (Image.ofProgram scope program).listing[linePosition scope program i - 1]? = some .blank := by
  have hbefore : linePosition scope program i - 1 =
      preamble.length + (codeBefore scope program.lines i).length := by
    simp [linePosition]
  have hskip (behind : List Item) :
      (preamble ++ (codeBefore scope program.lines i ++ .blank :: behind))[
        preamble.length + (codeBefore scope program.lines i).length]? = some .blank := by
    rw [List.getElem?_append_right (by omega), Nat.add_sub_cancel_left,
      List.getElem?_append_right (by omega), Nat.sub_self]
    rfl
  rw [hbefore]
  rcases Nat.lt_or_eq_of_le h with hlt | rfl
  · obtain ⟨behind, hlisting⟩ :=
      exists_listing_eq (List.getElem?_eq_getElem hlt)
    rw [hlisting, List.append_assoc, List.append_assoc]
    exact hskip _
  · rw [Image.listing_eq, ← codeBefore_length, List.append_assoc]
    exact hskip _

/-! ## Storage -/

/-- A text is not stored among items that are no storage of its label. -/
theorem textAt?_append_right {xs ys : List Item} {l : Label}
    (h : ∀ i ∈ xs, ∀ content, i ≠ .storage l (.text content)) :
    textAt? (xs ++ ys) l = textAt? ys l := by
  have hnone : xs.findSome? (Item.textAt? l) = none := by
    rw [List.findSome?_eq_none_iff]
    intro i hi
    cases i with
    | storage k stored =>
      cases stored with
      | text content =>
        rw [Item.textAt?, if_neg]
        rintro rfl
        exact h _ hi content rfl
      | _ => rfl
    | _ => rfl
  rw [textAt?, List.findSome?_append, hnone]
  rfl

/-- The texts of a pool are stored under their indices. -/
theorem textAt?_storageFrom {texts : List String} {k : Nat} {content : String}
    (h : texts[k]? = some content) (start : Nat) (behind : List Item) :
    textAt? (LiteralPool.storageFrom start texts ++ behind) (.literal (start + k)) =
      some content := by
  induction texts generalizing k start with
  | nil => cases h
  | cons text rest ih =>
    cases k with
    | zero =>
      cases h
      simp [LiteralPool.storageFrom, textAt?, Item.textAt?]
    | succ k =>
      have hlater := ih h (start + 1)
      have hindex : start + 1 + k = start + (k + 1) := by omega
      rw [hindex] at hlater
      rw [← hlater]
      have hfirst : ∀ i ∈ [Item.storage (.literal start) (.text text)], ∀ content,
          i ≠ .storage (.literal (start + (k + 1))) (.text content) := by
        intro i hi content heq
        rw [List.mem_singleton.1 hi] at heq
        injection heq with hlabel
        injection hlabel with hstart
        omega
      exact textAt?_append_right hfirst

/-- The code of lines stores nothing under the label of a text. -/
theorem not_storage_of_mem_code {i : Item} (hi : i ∈ (Image.ofProgram scope program).code)
    (k : Nat) (content : String) : i ≠ .storage (.literal k) (.text content) := by
  rintro rfl
  rcases exists_mem_definitions hi rfl none with ⟨whose, hname⟩
  rcases mem_definitions_lowerLines hname with ⟨line, -, heq | ⟨s, heq⟩⟩ <;> cases heq

/-- A text of the program is stored under its index. -/
theorem textAt?_literal {k : Nat} {content : String}
    (h : (Image.ofProgram scope program).pool.texts[k]? = some content) :
    textAt? (Image.ofProgram scope program).listing (.literal k) = some content := by
  have hlisting : (Image.ofProgram scope program).listing = preamble ++
      ((Image.ofProgram scope program).code ++
        ([.blank, .instr (.jmp (.routine .pcOutOfRange)), .blank] ++
          (variableListing scope.symbols ++ ([.blank] ++
            (LiteralPool.storageFrom 0 (Image.ofProgram scope program).pool.texts ++
              ([.blank, .storage .scratch (.zeroBytes stringSize)] ++ routines)))))) := by
    simp only [Image.listing, Image.body, LiteralPool.listing, List.append_assoc]
    rfl
  have hvariables : ∀ i ∈ variableListing scope.symbols, ∀ content,
      i ≠ .storage (.literal k) (.text content) := by
    rintro _ hi content rfl
    rcases List.mem_filterMap.1 hi with ⟨s, -, hs⟩
    rcases Option.map_eq_some_iff.1 hs with ⟨stored, -, heq⟩
    cases heq
  have htext := textAt?_storageFrom h 0
    ([.blank, .storage .scratch (.zeroBytes stringSize)] ++ routines)
  rw [Nat.zero_add] at htext
  rw [hlisting, textAt?_append_right (by simp [preamble]),
    textAt?_append_right fun i hi content => not_storage_of_mem_code hi k content,
    textAt?_append_right (by simp), textAt?_append_right hvariables,
    textAt?_append_right (by simp), htext]

/-- A variable for numbers has a word that is zero at first. -/
theorem wordCells_var {x : String} (h : ⟨x, .integer⟩ ∈ scope.symbols) :
    wordCells (Image.ofProgram scope program).listing (.var x) = some (.number 0) := by
  have hstored : Item.storage (.var x) .zeroWord ∈ variableListing scope.symbols :=
    List.mem_filterMap.2 ⟨_, h, rfl⟩
  rw [wordCells, if_pos]
  change _ ∈ preamble ++ Image.body _ ++ routines
  simp only [Image.body, List.mem_append]
  exact .inl (.inr (.inl (.inl (.inl (.inr hstored)))))

end Listing

end LineBasic
