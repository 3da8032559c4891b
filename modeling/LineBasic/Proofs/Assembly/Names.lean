import LineBasic.Proofs.Assembly.Reading
import LineBasic.Proofs.Processor.Labels
import LineBasic.Proofs.Text.Decimal
import LineBasic.Text.Letters

/-!
# The spelling of labels

Labels are spelled alike only if they are the same, and each is read as one name: it has neither
the form of a number nor that of a word of the assembler.  For a label with a dot this holds of
its full name.

Main definitions:

- `Label.Legible`: labels whose numbers carry no sign and whose names have letters and digits only.
- `FullName.spelled`: the full spelling of a label.

Main results:

- `Label.render_injective` and `FullName.spelled_inj`: different labels have different spellings.
- `Label.reads`: a label is read as one name.
-/

namespace LineBasic.Assembly

/-- Digits are characters of names. -/
theorem isNameChar_of_isDigit {c : Char} (h : c.isDigit = true) : isNameChar c = true := by
  simp [isNameChar, Char.isAlphanum, h]

/-! ## Fixed spellings -/

/-- The places that are not numbered. -/
def fixedSpots : List Spot :=
  [.lineEnd, .readNumber, .nextChar, .backspace, .done, .skipLeading, .checkPlus, .digit,
    .endDigits, .skipTrailing, .checkEnd, .positive, .store, .fail, .divide, .printDigit]

/-- Every routine once. -/
def allRoutines : List Routine :=
  [.readString, .newLine, .stringToNumber, .printNumber, .printString, .terminateProgram,
    .divisionByZero, .arithmeticOverflow, .pcOutOfRange, .runtimeError]

/-- The labels that do not depend on the program. -/
def fixedLabels : List Label :=
  .scratch :: allRoutines.flatMap fun r => [.routine r, .message r]

/-- A place is that of a division, or fixed. -/
theorem Spot.mem_fixedSpots {s : Spot} (h : ¬ ∃ count, s = .division count) : s ∈ fixedSpots := by
  cases s with
  | division count => exact absurd ⟨count, rfl⟩ h
  | _ => decide

/-- What the first characters of a spelling tell of a label. -/
def spellingKind : List Char → Nat
  | 'L' :: 'i' :: _ => 0
  | 'V' :: _ => 1
  | 'P' :: 'o' :: _ => 2
  | '.' :: _ => 3
  | _ => 4

/-- The kinds of labels. -/
def Label.kind : Label → Nat
  | line _ => 0
  | var _ => 1
  | literal _ => 2
  | inner _ => 3
  | _ => 4

theorem spellingKind_render (l : Label) : spellingKind l.render.toList = l.kind := by
  cases l with
  | line n | var x | literal k | inner s => simp [Label.render, spellingKind, Label.kind]
  | scratch => decide
  | routine r | message r => cases r <;> decide

theorem Label.mem_fixedLabels {l : Label} (h : l.kind = 4) : l ∈ fixedLabels := by
  cases l with
  | line n | var x | literal k | inner s => cases h
  | scratch => decide
  | routine r | message r => cases r <;> decide

/-! ## Different spellings -/

/-- Different places are spelled differently. -/
theorem Spot.spelling_injective : Function.Injective Spot.spelling := by
  have hdivision {count : Nat} {t : Spot} (h : (Spot.division count).spelling = t.spelling) :
      t = .division count := by
    by_cases hnumbered : ∃ k, t = .division k
    · rcases hnumbered with ⟨k, rfl⟩
      rw [Spot.spelling, Spot.spelling, String.append_right_inj] at h
      rw [eq_of_toString_eq h]
    · have hcapital : ∀ t ∈ fixedSpots, t.spelling.toList.head? ≠ some 'D' := by decide
      refine absurd ?_ (hcapital t (mem_fixedSpots hnumbered))
      rw [← h]
      simp [Spot.spelling]
  intro s t h
  by_cases hs : ∃ k, s = .division k
  · rcases hs with ⟨k, rfl⟩
    exact (hdivision h).symm
  by_cases ht : ∃ k, t = .division k
  · rcases ht with ⟨k, rfl⟩
    exact hdivision h.symm
  have hdistinct : ∀ s ∈ fixedSpots, ∀ t ∈ fixedSpots, s.spelling = t.spelling → s = t := by
    decide
  exact hdistinct s (mem_fixedSpots hs) t (mem_fixedSpots ht) h

/-- Different labels are spelled differently. -/
theorem Label.render_injective : Function.Injective Label.render := by
  intro l m h
  have hkind : l.kind = m.kind := by
    rw [← spellingKind_render, ← spellingKind_render, h]
  cases l with
  | line n =>
    cases m with
    | line k =>
      rw [Label.render, Label.render, String.append_right_inj] at h
      rw [eq_of_toString_int16_eq h]
    | _ => cases hkind
  | var x =>
    cases m with
    | var y =>
      rw [Label.render, Label.render, String.append_right_inj] at h
      rw [h]
    | _ => cases hkind
  | literal k =>
    cases m with
    | literal j =>
      rw [Label.render, Label.render, String.append_right_inj] at h
      rw [eq_of_toString_eq h]
    | _ => cases hkind
  | inner s =>
    cases m with
    | inner t =>
      rw [Label.render, Label.render, String.append_right_inj] at h
      rw [Spot.spelling_injective h]
    | _ => cases hkind
  | scratch | routine r | message r =>
    have hdistinct : ∀ l ∈ fixedLabels, ∀ m ∈ fixedLabels, l.render = m.render → l = m := by
      decide
    exact hdistinct _ (mem_fixedLabels rfl) m (mem_fixedLabels hkind.symm) h

/-! ## Labels as names -/

/-- Labels whose numbers carry no sign and whose names have letters and digits only. -/
def Label.Legible : Label → Prop
  | line n => 0 ≤ n.toInt
  | var x => ∀ c ∈ x.toList, c.isAlphanum = true
  | _ => True

/-- Labels that do not depend on the program are legible. -/
theorem Label.legible_of_kind {l : Label} (h : l.kind = 4) :
    l.Legible ∧ ∀ s, l ≠ .inner s := by
  cases l with
  | line n | var x | literal k | inner s => cases h
  | _ => exact ⟨trivial, by simp⟩

instance : DecidablePred Label.Legible
  | .line n => inferInstanceAs (Decidable (0 ≤ n.toInt))
  | .var x => decidable_of_iff (x.toList.all Char.isAlphanum = true) List.all_eq_true
  | .literal _ | .scratch | .routine _ | .message _ | .inner _ => isTrue trivial

/-- A name goes on behind a fixed beginning. -/
theorem isNameChar_append {front behind : String} (hfront : front.toList.all isNameChar = true)
    (hbehind : ∀ c ∈ behind.toList, isNameChar c = true) :
    ∀ c ∈ (front ++ behind).toList, isNameChar c = true := by
  rw [String.toList_append, List.forall_mem_append]
  exact ⟨List.all_eq_true.1 hfront, hbehind⟩

theorem isNameChar_spelling (s : Spot) : ∀ c ∈ s.spelling.toList, isNameChar c = true := by
  cases s with
  | division count =>
    exact isNameChar_append (by decide) fun c hc =>
      isNameChar_of_isDigit (isDigit_of_mem_toString hc)
  | _ => exact List.all_eq_true.1 (by decide)

/-- Labels without a dot have no dot inside. -/
theorem Label.Legible.isNameChar {l : Label} (h : l.Legible) (hinner : ∀ s, l ≠ .inner s) :
    ∀ c ∈ l.render.toList, isNameChar c = true := by
  cases l with
  | line n =>
    exact isNameChar_append (by decide) fun c hc =>
      isNameChar_of_isDigit (isDigit_of_mem_toString_int16 h hc)
  | var x =>
    refine isNameChar_append (by decide) fun c hc => ?_
    rw [Assembly.isNameChar, h c hc, Bool.true_or]
  | literal k =>
    exact isNameChar_append (by decide) fun c hc =>
      isNameChar_of_isDigit (isDigit_of_mem_toString hc)
  | inner s => exact absurd rfl (hinner s)
  | scratch => exact List.all_eq_true.1 (by decide)
  | routine r | message r => cases r <;> exact List.all_eq_true.1 (by decide)

/-- The characters of labels. -/
theorem Label.Legible.isSymbolChar {l : Label} (h : l.Legible) :
    ∀ c ∈ l.render.toList, isSymbolChar c = true := by
  by_cases hinner : ∃ s, l = .inner s
  · rcases hinner with ⟨s, rfl⟩
    rw [Label.render, String.toList_append, List.forall_mem_append]
    refine ⟨List.all_eq_true.1 (by decide), fun c hc => ?_⟩
    rw [Assembly.isSymbolChar, isNameChar_spelling s c hc, Bool.true_or]
  · intro c hc
    rw [Assembly.isSymbolChar, h.isNameChar (not_exists.1 hinner) c hc, Bool.true_or]

/-- Only labels inside others begin with a dot. -/
theorem Label.render_ne_dot {l : Label} (h : ∀ s, l ≠ .inner s) (w : List Char) :
    l.render.toList ≠ '.' :: w := by
  intro heq
  have hkind := spellingKind_render l
  rw [heq] at hkind
  cases l with
  | inner s => exact h s rfl
  | _ => cases hkind

/-- Words of the assembler begin with small letters. -/
theorem isName_of_head {w : List Char}
    (h : w.head?.any (fun c => c.isUpper || c == '.') = true) : isName w = true := by
  have hsmall : ∀ r ∈ reservedWords,
      r.toList.head?.any (fun c => c.isUpper || c == '.') = false := by decide
  cases w with
  | nil => cases h
  | cons c rest =>
    have hnot : String.ofList (c :: rest) ∉ reservedWords := by
      intro hmem
      have hhead := hsmall _ hmem
      rw [String.toList_ofList, h] at hhead
      cases hhead
    have hdigit : c.isDigit = false := by
      rcases Bool.or_eq_true_iff.1 h with hupper | hdot
      · exact isDigit_eq_false_of_isAlpha (isAlpha_of_isUpper hupper)
      · rw [beq_iff_eq.1 hdot]
        rfl
    have hquote : c ≠ '\'' := by
      rintro rfl
      cases h
    have hreserved : reservedWords.contains (String.ofList (c :: rest)) = false := by
      rwa [List.contains_eq_mem, decide_eq_false_iff_not]
    rw [isName, hdigit, hreserved, bne_iff_ne.2 hquote]
    rfl

/-- No label is a word of the assembler. -/
theorem Label.isName_render (l : Label) : isName l.render.toList = true := by
  apply isName_of_head
  cases l with
  | line n | var x | literal k | inner s => simp [Label.render]
  | scratch => decide
  | routine r | message r => cases r <;> decide

/-- A label is read as one name. -/
theorem Label.reads {l : Label} (h : l.Legible) : Reads l.render.toList [l.render.toList] := by
  have hword := Reads.word fun c hc => by
    rw [isWordChar, h.isSymbolChar c hc, Bool.true_or]
  rwa [l.isName_render, if_pos rfl] at hword

/-! ## Full names -/

/-- The spelling of the label that a dot stands for. -/
def spelledOwner (owner : Option Label) : List Char :=
  owner.elim [] fun l => l.render.toList

/-- The full spelling of a label. -/
def FullName.spelled (name : FullName) : List Char :=
  spelledOwner name.owner ++ name.label.render.toList

/-- The full spelling of a label at a place. -/
theorem fullSymbol_render (owner : Option Label) (l : Label) :
    fullSymbol (spelledOwner owner) l.render.toList = (fullName owner l).spelled := by
  by_cases hinner : ∃ s, l = .inner s
  · rcases hinner with ⟨s, rfl⟩
    simp [fullSymbol, fullName, FullName.spelled, Label.render]
  · rw [fullName_of_ne_inner (not_exists.1 hinner)]
    exact fullSymbol_of_ne (Label.render_ne_dot (not_exists.1 hinner)) _

/-- Labels with a dot have an owner without one, others have none. -/
inductive FullName.Legible : FullName → Prop where
  | outer {l} : l.Legible → (∀ s, l ≠ .inner s) → Legible ⟨none, l⟩
  | inner {l s} : l.Legible → (∀ s, l ≠ .inner s) → Legible ⟨some l, .inner s⟩

/-- The label that a full name begins with. -/
def FullName.front (name : FullName) : Label :=
  name.owner.getD name.label

/-- Up to the first dot, a full name is the label that it begins with. -/
theorem FullName.Legible.takeWhile_spelled {name : FullName} (h : name.Legible) :
    name.spelled.takeWhile isNameChar = name.front.render.toList := by
  cases h with
  | outer hlegible hinner =>
    exact List.takeWhile_eq_self_iff.2 (hlegible.isNameChar hinner)
  | @inner l s hlegible hinner =>
    have hdot : isNameChar '.' = false := by decide
    change (l.render.toList ++ (Label.inner s).render.toList).takeWhile isNameChar = _
    rw [List.takeWhile_append_of_pos (hlegible.isNameChar hinner)]
    simp [Label.render, hdot, FullName.front]

/-- Different full names are spelled differently. -/
theorem FullName.spelled_inj {m n : FullName} (hm : m.Legible) (hn : n.Legible)
    (h : m.spelled = n.spelled) : m = n := by
  have hfront : m.front = n.front := by
    apply Label.render_injective
    apply String.toList_injective
    rw [← hm.takeWhile_spelled, ← hn.takeWhile_spelled, h]
  cases hm with
  | outer _ hnot =>
    cases hn with
    | outer => exact congrArg _ hfront
    | @inner l s =>
      -- one of them ends where the dot of the other follows
      cases hfront
      have hlength := congrArg List.length h
      simp [FullName.spelled, spelledOwner, Label.render] at hlength
  | @inner l s =>
    cases hn with
    | outer =>
      cases hfront
      have hlength := congrArg List.length h
      simp [FullName.spelled, spelledOwner, Label.render] at hlength
    | @inner k t =>
      obtain rfl : l = k := hfront
      have hbehind := List.append_cancel_left h
      exact congrArg _ (Label.render_injective (String.toList_injective hbehind))

end LineBasic.Assembly
