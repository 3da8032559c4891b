import LineBasic.Proofs.Lowering.Buffers

/-!
# Texts that end inside their buffers

A text is moved by copying as many bytes as a buffer has, wherever it ends.  So a text of the
program that is too long loses the zero behind it, and with no such text in an assignment every
buffer has a zero after all statements that write to variables.  Printing a buffer with a zero stays
inside it.

Main definitions:

- `EndsInBuffer`: texts whose end is copied with them.
- `Checked.Executes`: a statement is executed.
- `Checked.Leaves`: what statements that write leave in memory, one after the other.
- `Program.assignedTexts`: the texts that a program assigns to variables.
- `Checked.Prints`: what is printed of a buffer, whatever is in memory outside.

Main results:

- `endsInBuffer_iff_length_lt`: texts without zeros end inside a buffer if they are short enough.
- `Checked.Intact.of_executes`: one statement leaves the buffers with their zeros.
- `exists_prints_iff`: printing stays inside a buffer exactly if there is a zero.
- `terminated_iff_endsInBuffer`: all statements leave a zero in every buffer exactly if the texts
  that are assigned end inside a buffer.
-/

namespace LineBasic

open Assembly Machine

/-! ## What is copied -/

/-- There is a zero among the bytes of a text that have room in a buffer, the zero behind the text
being one of them. -/
def EndsInBuffer (content : String) : Prop :=
  0 ∈ (Storage.text content).bytes.take stringSize

instance (content : String) : Decidable (EndsInBuffer content) :=
  inferInstanceAs (Decidable (0 ∈ (Storage.text content).bytes.take stringSize))

/-- Texts without zeros end inside a buffer if they leave room for the zero behind them. -/
theorem endsInBuffer_iff_length_lt {content : String} (h : ∀ b ∈ encode content, b ≠ 0) :
    EndsInBuffer content ↔ (encode content).length < stringSize := by
  have hsome : (0 : BitVec 8) ∉ (encode content).map UInt8.toBitVec := by
    intro hmem
    rcases List.mem_map.1 hmem with ⟨b, hb, hzero⟩
    exact h b hb (UInt8.toBitVec_inj.1 hzero)
  constructor
  · intro hends
    by_contra hlong
    have hlength : stringSize ≤ ((encode content).map UInt8.toBitVec).length := by
      rw [List.length_map]
      exact Nat.le_of_not_lt hlong
    rw [EndsInBuffer, Storage.bytes, List.take_append_of_le_length hlength] at hends
    exact hsome (List.mem_of_mem_take hends)
  · intro hshort
    rw [EndsInBuffer, List.take_of_length_le]
    · exact List.mem_append_right _ List.mem_cons_self
    · simpa [Storage.bytes] using hshort

section Copied

variable {checked : Checked} {layout : Layout} {m : Memory} {x y : String}

/-- A text of the program ends behind a copy of it if it ends inside a buffer. -/
theorem terminated_copy_literal_iff (hwell : checked.WellFormed)
    (hfits : Fits layout checked.image.listing) (hintact : checked.Intact layout m) {k : Nat}
    {content : String}
    (hk : .storage (.literal k) (.text content) ∈ checked.image.listing)
    (hx : ⟨x, .string⟩ ∈ checked.scope.symbols) :
    Terminated (m.copy (layout (.literal k)) (layout (.var x)) stringSize) (layout (.var x))
      stringSize ↔ EndsInBuffer content := by
  have hstored := ((isBuffer_of_mem hwell hx).stored _).2 rfl
  have hroom := hfits.length_le _ _ hk
  -- the bytes of the text are copied as they are
  have hcopied (a : BitVec 16) (ha : Covers (layout (.var x)) stringSize a) (b : BitVec 8)
      (hb : (Storage.text content).bytes[(a - layout (.var x)).toNat]? = some b) :
      m.copy (layout (.literal k)) (layout (.var x)) stringSize a = b := by
    have hlt := (List.getElem?_eq_some_iff.1 hb).1
    have hbyte := hintact.literals k content hk _ b hb
    rw [BitVec.ofNat_toNat, BitVec.setWidth_eq] at hbyte
    rw [Memory.copy_of_covers _ (by decide) ha, BitVec.add_comm, hbyte]
    rw [BitVec.add_comm]
    exact hfits.disjoint _ _ _ _ hk hstored (fun heq => by cases heq) _ (Covers.offset hlt _)
  constructor
  · rintro ⟨a, ha, hzero⟩
    by_cases hlt : (a - layout (.var x)).toNat < (Storage.text content).bytes.length
    · have hbyte := List.getElem?_eq_getElem hlt
      rw [← hcopied a ha _ hbyte, hzero] at hbyte
      exact List.mem_of_getElem? ((List.getElem?_take_of_lt ha).trans hbyte)
    · -- all of the text has room
      have hshort := Nat.le_of_lt (Nat.lt_of_le_of_lt (Nat.le_of_not_lt hlt) ha)
      rw [EndsInBuffer, List.take_of_length_le hshort]
      exact List.mem_append_right _ List.mem_cons_self
  · intro hends
    rcases List.mem_iff_getElem?.1 hends with ⟨j, hj⟩
    rw [List.getElem?_take] at hj
    split at hj
    · rename_i hlt
      have hoffset : (BitVec.ofNat 16 j).toNat = j := by
        rw [BitVec.toNat_ofNat]
        exact Nat.mod_eq_of_lt (Nat.lt_trans hlt (by decide))
      have hcovers : Covers (layout (.var x)) stringSize (BitVec.ofNat 16 j + layout (.var x)) :=
        Covers.offset (hoffset.symm ▸ hlt) _
      refine ⟨_, hcovers, hcopied _ hcovers 0 ?_⟩
      rw [BitVec.add_sub_cancel, hoffset, hj]
    · cases hj

/-- A variable ends behind a copy of it. -/
theorem terminated_copy_var (hwell : checked.WellFormed)
    (hfits : Fits layout checked.image.listing) (hintact : checked.Intact layout m)
    (hx : ⟨x, .string⟩ ∈ checked.scope.symbols) (hy : ⟨y, .string⟩ ∈ checked.scope.symbols) :
    Terminated (m.copy (layout (.var y)) (layout (.var x)) stringSize) (layout (.var x))
      stringSize := by
  by_cases hsame : y = x
  · rw [hsame, Memory.copy_self]
    exact hintact.terminated x hx
  have hstored := ((isBuffer_of_mem hwell hx).stored _).2 rfl
  have hsource := ((isBuffer_of_mem hwell hy).stored _).2 rfl
  rcases hintact.terminated y hy with ⟨b, hb, hzero⟩
  have hb' : layout (.var y) + (b - layout (.var y)) = b := by
    rw [BitVec.add_comm, BitVec.sub_add_cancel]
  have hoffset : b - layout (.var y) + layout (.var x) - layout (.var x) = b - layout (.var y) :=
    BitVec.add_sub_cancel _ _
  refine ⟨b - layout (.var y) + layout (.var x), Covers.offset hb _, ?_⟩
  rw [Memory.copy_of_covers _ (by decide) (Covers.offset hb _), hoffset, hb', hzero]
  rw [hoffset, hb']
  exact hfits.disjoint _ _ _ _ hsource hstored (fun heq => hsame (Label.var.inj heq)) _ hb

end Copied

/-! ## Statements one after the other -/

/-- Statements that write to variables. -/
def Stmt.isWriting : Stmt → Bool
  | declare _ _ => true
  | assign _ _ => true
  | input _ => true
  | _ => false

/-- A statement is executed: control gets from the beginning of its code to the end of it, and is
with the statement or with a routine that reads its input all the while. -/
def Checked.Executes (checked : Checked) (layout : Layout) (s : Stmt) (st : LoweringState) (q : Nat)
    (c c' : Computer) : Prop :=
  Eventually layout checked.image.listing (checked.Region s st q)
    (fun r d => r = checked.endOf s st q ∧ d = c') q c

/-- What is in memory after statements that write to variables, in whatever order they are executed.
In between, all else may change. -/
inductive Checked.Leaves (checked : Checked) (layout : Layout) (m₀ : Memory) : Memory → Prop
  | none : Leaves checked layout m₀ m₀
  | executed {s : Stmt} {st : LoweringState} {q : Nat} {c c' : Computer}
      (h : Leaves checked layout m₀ c.memory) (hsite : checked.Site s st q)
      (hwriting : s.isWriting = true) (hexecutes : checked.Executes layout s st q c c') :
      Leaves checked layout m₀ c'.memory

/-- The texts that a statement assigns, on whatever conditions. -/
def Stmt.assigned : Stmt → List String
  | assign _ (.text content) => [content]
  | cond _ _ _ body => body.assigned
  | _ => []

/-- The texts that a program assigns to variables. -/
def Program.assignedTexts (program : Program) : List String :=
  program.lines.flatMap fun line => line.stmt.assigned

section Assigned

variable {checked : Checked} {s : Stmt} {st : LoweringState} {q : Nat} {x content : String}

/-- The texts that a statement of a program assigns. -/
theorem Checked.Site.assigned_subset (h : checked.Site s st q) :
    s.assigned ⊆ checked.program.assignedTexts := by
  induction h with
  | line h =>
    intro content hcontent
    exact List.mem_flatMap.2 ⟨_, List.mem_of_getElem? h, hcontent⟩
  | body _ ih => exact ih

/-- A text that a statement assigns is assigned by a part of it. -/
theorem Checked.Site.exists_assign (h : checked.Site s st q) (hcontent : content ∈ s.assigned) :
    ∃ x st q, checked.Site (.assign x (.text content)) st q := by
  induction s generalizing st q with
  | assign x value =>
    cases value with
    | text _ =>
      cases List.mem_singleton.1 hcontent
      exact ⟨x, st, q, h⟩
    | _ => cases hcontent
  | cond lhs op rhs body ih => exact ih h.body hcontent
  | _ => cases hcontent

/-- A text that a program assigns is assigned by one of its statements. -/
theorem exists_site_of_mem_assignedTexts (h : content ∈ checked.program.assignedTexts) :
    ∃ x st q, checked.Site (.assign x (.text content)) st q := by
  rcases List.mem_flatMap.1 h with ⟨line, hline, hcontent⟩
  rcases List.mem_iff_getElem?.1 hline with ⟨i, hi⟩
  exact (Checked.Site.line hi).exists_assign hcontent

/-- A text is assigned to a variable for texts. -/
theorem Checked.Site.mem_symbols_of_text (h : checked.Site (.assign x (.text content)) st q)
    (hwell : checked.WellFormed) : ⟨x, .string⟩ ∈ checked.scope.symbols := by
  rcases h.wellTyped hwell with ⟨type, htype, hvalue⟩
  cases hvalue
  exact hwell.isGlobal.mem_of_typeOf? (h.isCanonical hwell).1 htype

end Assigned

section Statements

variable {checked : Checked} {layout : Layout} {s : Stmt} {st : LoweringState} {q : Nat}
  {c c' : Computer} {x : String} {content : String}

/-- A statement that has been executed is where all its executions get to. -/
theorem Checked.Intact.of_eventually (hsite : checked.Site s st q)
    (hexecutes : checked.Executes layout s st q c c')
    (h : Eventually layout checked.image.listing (checked.Region s st q)
      (fun r d => (r = checked.endOf s st q ∧ checked.Intact layout d.memory) ∨
        (checked.Region s st q r ∧ d.step? layout checked.image.listing r = Option.none)) q c) :
    checked.Intact layout c'.memory := by
  have hout := hsite.not_region_end
  have hmeet := h.meet hexecutes
    (fun r d hthere hinside => hthere.elim (fun hend => absurd (hend.1 ▸ hinside) hout) And.right)
    (fun r d hend hinside => absurd (hend.1 ▸ hinside) hout)
  rcases hmeet with ⟨r, d, hintact | hstuck, rfl, rfl⟩
  · exact hintact.2
  · exact absurd hstuck.1 hout

/-- The text of an assignment is stored, and is copied from there. -/
theorem exists_codeOf_assign_text (hsite : checked.Site (.assign x (.text content)) st q) :
    ∃ k, .storage (.literal k) (.text content) ∈ checked.image.listing ∧
      checked.codeOf (.assign x (.text content)) st = copyString (.literal k) x := by
  refine ⟨(st.pool.intern content).1, storage_mem_listing ?_, rfl⟩
  rcases hsite.pool_extends with ⟨more, hmore⟩
  have hthere := (st.pool.intern_spec content).1
  have hlt := (List.getElem?_eq_some_iff.1 hthere).1
  rw [hmore]
  exact (List.getElem?_append_left hlt).trans hthere

/-- An assignment to a variable for texts copies from somewhere, and the copy ends. -/
theorem exists_codeOf_assign (hwell : checked.WellFormed)
    (hfits : Fits layout checked.image.listing) {value : Expr}
    (hsite : checked.Site (.assign x value) st q) (hstring : checked.scope.isString x = true)
    (hx : ⟨x, .string⟩ ∈ checked.scope.symbols)
    (htexts : ∀ content, value = .text content → EndsInBuffer content) {m : Memory}
    (hintact : checked.Intact layout m) :
    ∃ src, checked.codeOf (.assign x value) st = copyString src x ∧
      Terminated (m.copy (layout src) (layout (.var x)) stringSize) (layout (.var x))
        stringSize := by
  rcases hsite.wellTyped hwell with ⟨type, htype, hvalue⟩
  obtain rfl := Scope.eq_string htype hstring
  have hitem := (hsite.isCanonical hwell).2
  cases value with
  | number n => cases hvalue
  | text content =>
    rcases exists_codeOf_assign_text hsite with ⟨k, hk, hcode⟩
    have hends := htexts content rfl
    exact ⟨_, hcode, (terminated_copy_literal_iff hwell hfits hintact hk hx).2 hends⟩
  | name y =>
    have hcode : checked.codeOf (.assign x (.name y)) st = copyString (.var y) x := by
      simp only [Checked.codeOf, lowerStmt, lowerAssign, if_pos hstring]
      rfl
    have hy := hwell.isGlobal.mem_of_typeOf? hitem (Scope.require_eq_ok_iff.1 hvalue)
    exact ⟨_, hcode, terminated_copy_var hwell hfits hintact hx hy⟩
  | binary op lhs rhs => cases (Expr.type_binary_eq_ok_iff.1 hvalue).1

/-- A statement leaves all buffers intact, if a text that it assigns ends inside a buffer. -/
theorem Checked.Intact.of_executes (hwell : checked.WellFormed)
    (hfits : Fits layout checked.image.listing) (hsite : checked.Site s st q)
    (hwriting : s.isWriting = true)
    (htexts : ∀ x content, s = .assign x (.text content) → EndsInBuffer content)
    (hintact : checked.Intact layout c.memory) (hexecutes : checked.Executes layout s st q c c') :
    checked.Intact layout c'.memory := by
  have htyped := hsite.wellTyped hwell
  have hcanonical := hsite.isCanonical hwell
  have hblock := hsite.block hwell
  cases s with
  | declare type names =>
    refine .of_eventually hsite hexecutes ?_
    refine declare_run hwell hfits (fun x hx => ⟨hcanonical x hx, _, htyped x hx⟩) hblock hintact ?_
    exact fun d hd => .here (.inl ⟨rfl, hd⟩)
  | input x =>
    refine .of_eventually hsite hexecutes ?_
    rcases htyped with ⟨type, htype⟩
    have hx := hwell.isGlobal.mem_of_typeOf? hcanonical htype
    by_cases hstring : checked.scope.isString x = true
    · obtain rfl := Scope.eq_string htype hstring
      have hstored := ((isBuffer_of_mem hwell hx).stored _).2 rfl
      have hcode : checked.codeOf (.input x) st = readLine (.var x) := if_pos hstring
      rw [Checked.endOf, hcode]
      rw [hcode] at hblock
      exact readLine_run hwell hfits hstored (fun k heq => by cases heq) hblock
        (fun r hr k hk => Checked.region_of_reads hr k hk) (fun r d hr hd => .inr ⟨hr, hd⟩) hintact
        fun d hd _ _ => .here (.inl ⟨rfl, hd⟩)
    · obtain rfl := hwell.isGlobal.eq_integer htype hstring
      exact input_number_run hwell hfits hsite htype hx (fun r d hr hd => .inr ⟨hr, hd⟩) hintact
        fun d hd => .here (.inl ⟨rfl, hd⟩)
  | assign x value =>
    rcases htyped with ⟨type, htype, hvalue⟩
    have hx := hwell.isGlobal.mem_of_typeOf? hcanonical.1 htype
    by_cases hstring : checked.scope.isString x = true
    · obtain rfl := Scope.eq_string htype hstring
      refine .of_eventually hsite hexecutes ?_
      rcases exists_codeOf_assign hwell hfits hsite hstring hx
          (fun content heq => htexts x content (by rw [heq])) hintact with ⟨src, hcode, hcopied⟩
      rw [Checked.endOf, hcode]
      rw [hcode] at hblock
      exact copy_run hwell hfits hx hblock hintact hcopied fun d hd => .here (.inl ⟨rfl, hd⟩)
    · obtain rfl := hwell.isGlobal.eq_integer htype hstring
      refine intact_of_wordCode hwell hfits (wordCode_assign htype hx hvalue st)
        (hsite.placed hwell) (fun r hr => ?_) hexecutes hintact
      rcases hr with hr | ⟨routine, hcalls, -⟩
      · exact hr
      · cases hcalls
  | _ => cases hwriting

/-- All statements leave the buffers intact, if all texts that are assigned end inside a buffer. -/
theorem Checked.Intact.of_leaves (hwell : checked.WellFormed)
    (hfits : Fits layout checked.image.listing) {m₀ m : Memory}
    (hloaded : Loaded layout checked.image.listing m₀)
    (htexts : ∀ content ∈ checked.program.assignedTexts, EndsInBuffer content)
    (h : checked.Leaves layout m₀ m) : checked.Intact layout m := by
  induction h with
  | none => exact .of_loaded hwell hloaded
  | executed _ hsite hwriting hexecutes ih =>
    refine .of_executes hwell hfits hsite hwriting ?_ ih hexecutes
    rintro x content rfl
    exact htexts content (hsite.assigned_subset List.mem_cons_self)

/-- An assignment of a text is executed from any memory, and copies the text as it is. -/
theorem exists_leaves_copy (hwell : checked.WellFormed)
    (hsite : checked.Site (.assign x (.text content)) st q) (m₀ : Memory) :
    ∃ k, .storage (.literal k) (.text content) ∈ checked.image.listing ∧
      checked.Leaves layout m₀
        (m₀.copy (layout (.literal k)) (layout (.var x)) stringSize) := by
  rcases exists_codeOf_assign_text hsite with ⟨k, hk, hcode⟩
  let c : Computer :=
    ⟨⟨0, 0, 0, 0, 0, 0⟩, ⟨none, none, none, none⟩, m₀, [], [], []⟩
  let copied : Computer := { c with
    registers := ⟨0, 0, 0, 0, layout (.literal k) + 32, layout (.var x) + 32⟩
    memory := m₀.copy (layout (.literal k)) (layout (.var x)) (BitVec.ofInt 16 32).toNat }
  have hblock := hsite.block hwell
  have hexecutes : checked.Executes layout (.assign x (.text content)) st q c copied := by
    rw [Checked.Executes, Checked.endOf, hcode]
    rw [hcode] at hblock
    have hpass : c.pass? layout (((copyString (.literal k) x).drop 0).take 4) = some copied := rfl
    exact hblock.pass 0 4 hpass (Nat.le_of_ble_eq_true rfl) (.here ⟨rfl, rfl⟩)
  exact ⟨k, hk, .executed (c := c) .none hsite rfl hexecutes⟩

end Statements

/-! ## Printing -/

/-- The routine that prints texts, when it is called with the address of a variable, prints a text
and comes back.  All that counts in memory is the buffer of the variable. -/
def Checked.Prints (checked : Checked) (layout : Layout) (m : Memory) (x : String)
    (text : List (BitVec 8)) : Prop :=
  ∀ (d : Computer) (q p back : Nat) (rest : List Computer.Slot),
    (∀ a, Covers (layout (.var x)) stringSize a → d.memory a = m a) →
    d.registers.dx = layout (.var x) → d.stack = .place back :: rest →
    resolve? checked.image.listing q (.routine .printString) = some p →
    Eventually layout checked.image.listing (InRoutine checked.image.listing .printString)
      (fun r e => r = back ∧
        ∃ flags, e = { d with flags := flags, printed := d.printed ++ text, stack := rest }) p d

section Printing

variable {checked : Checked} {layout : Layout} {m : Memory} {x : String}

/-- The routine prints the text at the address it is called with, from its label on. -/
theorem printString_called (hwell : checked.WellFormed) {d : Computer} {q p back : Nat}
    {rest : List Computer.Slot} {text : List (BitVec 8)}
    (htext : d.memory.HoldsText d.registers.dx text) (hstack : d.stack = .place back :: rest)
    (hresolve : resolve? checked.image.listing q (.routine .printString) = some p) :
    Eventually layout checked.image.listing (InRoutine checked.image.listing .printString)
      (fun r e => r = back ∧
        ∃ flags, e = { d with flags := flags, printed := d.printed ++ text, stack := rest })
      p d := by
  have hmem : (.printString, printStringBody) ∈ textRoutines := by simp [textRoutines]
  obtain ⟨p', hroutine⟩ := exists_textRoutine hwell hmem
  obtain rfl : p' = p := by
    rw [hroutine.resolve] at hresolve
    exact Option.some.inj hresolve
  have hlabel : d.step? layout checked.image.listing p' = some (p' + 1, d) := by
    rw [Computer.step?, hroutine.label]
  refine .step (hroutine.owned 0 (Nat.zero_le _)) hlabel ?_
  exact printString_run (hroutine.block fun _ h => h) hstack htext fun flags =>
    .here ⟨rfl, flags, rfl⟩

/-- The first place of a listing is in no routine. -/
theorem not_inRoutine_zero {r : Routine} : ¬ InRoutine checked.image.listing r 0 := by
  intro h
  rw [InRoutine, ownerAt, Image.listing_eq_storage] at h
  cases h

/-- Printing a variable stays inside its buffer if the text in it ends there, and only then. -/
theorem exists_prints_iff (hwell : checked.WellFormed) :
    (∃ text, text.length < stringSize ∧ checked.Prints layout m x text) ↔
      Terminated m (layout (.var x)) stringSize := by
  constructor
  · rintro ⟨text, hlength, hprints⟩
    -- behind the buffer there may be a zero at once
    let m' : Memory := fun a => if Covers (layout (.var x)) stringSize a then m a else 0
    have hsame (a : BitVec 16) (ha : Covers (layout (.var x)) stringSize a) : m' a = m a :=
      if_pos ha
    have hbehind : Terminated m' (layout (.var x)) (stringSize + 1) := by
      refine ⟨BitVec.ofNat 16 stringSize + layout (.var x), Covers.offset (by decide) _, if_neg ?_⟩
      rw [Covers, BitVec.add_sub_cancel]
      decide
    rcases hbehind.exists_holdsText (by decide) with ⟨text', -, htext'⟩
    let d : Computer := ⟨⟨0, 0, 0, layout (.var x), 0, 0⟩, ⟨none, none, none, none⟩, m',
      [.place 0], [], []⟩
    have hmem : (.printString, printStringBody) ∈ textRoutines := by simp [textRoutines]
    obtain ⟨p, hroutine⟩ := exists_textRoutine hwell hmem
    have hresolve := hroutine.resolve 0
    have hend (printed : List (BitVec 8)) (r : Nat) (e : Computer)
        (hback : r = 0 ∧ ∃ flags, e = { d with flags := flags, printed := printed, stack := [] })
        (hinside : InRoutine checked.image.listing .printString r) :
        e.step? layout checked.image.listing r = none :=
      absurd (hback.1 ▸ hinside) not_inRoutine_zero
    -- what is printed is the text in this memory
    have hrun := hprints d 0 p 0 [] hsame rfl rfl hresolve
    rcases hrun.meet (printString_called hwell htext' rfl hresolve) (hend _) (hend _) with
      ⟨r, e, ⟨-, flags, rfl⟩, -, flags', heq⟩
    obtain rfl : text = text' := (Computer.mk.inj heq).2.2.2.2.2
    rcases htext'.terminated (by decide) hlength with ⟨a, ha, hzero⟩
    exact ⟨a, ha, (hsame a ha).symm.trans hzero⟩
  · intro hterminated
    rcases hterminated.exists_holdsText (by decide) with ⟨text, hlength, htext⟩
    refine ⟨text, hlength, fun d q p back rest hsame hdx hstack hresolve => ?_⟩
    refine printString_called hwell ?_ hstack hresolve
    rw [hdx]
    exact htext.congr (by decide) hlength hsame

end Printing

/-! ## Texts that are assigned -/

/-- What statements that write leave in memory has a zero in every buffer if the texts that are
assigned are short enough, and only then.  Printing a variable stays inside its buffer if there is
a zero in it, and only then. -/
theorem terminated_iff_endsInBuffer {source : String} {checked : Checked}
    (h : check source = .ok checked) {layout : Layout}
    (hfits : Fits layout checked.image.listing) {m₀ : Memory}
    (hloaded : Loaded layout checked.image.listing m₀) :
    ((∀ m, checked.Leaves layout m₀ m → ∀ x, ⟨x, .string⟩ ∈ checked.scope.symbols →
      Terminated m (layout (.var x)) stringSize) ↔
        ∀ content ∈ checked.program.assignedTexts, EndsInBuffer content) ∧
    ∀ m x, (∃ text, text.length < stringSize ∧ checked.Prints layout m x text) ↔
      Terminated m (layout (.var x)) stringSize := by
  have hwell := Checked.wellFormed_of_check h
  refine ⟨⟨fun hall content hcontent => ?_, fun htexts m hleaves => ?_⟩,
    fun m x => exists_prints_iff hwell⟩
  · rcases exists_site_of_mem_assignedTexts hcontent with ⟨x, st, q, hsite⟩
    rcases exists_leaves_copy hwell hsite m₀ with ⟨k, hk, hleaves⟩
    have hx := hsite.mem_symbols_of_text hwell
    have hintact := Checked.Intact.of_loaded hwell hloaded
    exact (terminated_copy_literal_iff hwell hfits hintact hk hx).1 (hall _ hleaves x hx)
  · exact (Checked.Intact.of_leaves hwell hfits hloaded htexts hleaves).terminated

/-! ## Programs that assign one text -/

/-- A program that assigns a text that ends inside a buffer. -/
def shortText : String :=
  "10 STRING A\r\n20 LET A = \"HI\""

/-- A program that assigns a text of as many bytes as a buffer has. -/
def longText : String :=
  "10 STRING A\r\n20 LET A = \"ABCDEFGHIJKLMNOPQRSTUVWXYZ012345\""

/-- Either program with its scope. -/
def checkedAssigning (content : String) : Checked :=
  ⟨⟨[⟨10, .declare .string ["A"]⟩, ⟨20, .assign "A" (.text content)⟩]⟩,
    ⟨⟨"GLOBAL", [⟨"A", .string⟩]⟩, []⟩⟩

theorem check_shortText : check shortText = .ok (checkedAssigning "HI") := by
  cbv

theorem check_longText :
    check longText = .ok (checkedAssigning "ABCDEFGHIJKLMNOPQRSTUVWXYZ012345") := by
  cbv

/-- Addresses for the programs, a page for each label. -/
def pageLayout : Layout
  | .var _ => 0x0100
  | .literal _ => 0x0200
  | .scratch => 0x0300
  | .message .divisionByZero => 0x0400
  | .message .arithmeticOverflow => 0x0500
  | _ => 0x0600

section Assigning

variable {content : String}

/-- What the programs store: the variable, its text, the line that is read, and messages. -/
theorem stored_checkedAssigning :
    stored (checkedAssigning content).image.listing =
      [(.var "A", .zeroBytes 32), (.literal 0, .text content), (.scratch, .zeroBytes 32),
        (.message .divisionByZero, .text "Runtime error: division by zero"),
        (.message .arithmeticOverflow, .text "Runtime error: arithmetic overflow"),
        (.message .pcOutOfRange, .text "Runtime error: PC out of range")] := by
  have hroutines : stored routines =
      [(.message .divisionByZero, .text "Runtime error: division by zero"),
        (.message .arithmeticOverflow, .text "Runtime error: arithmetic overflow"),
        (.message .pcOutOfRange, .text "Runtime error: PC out of range")] := rfl
  rw [Image.listing_eq_storage, stored_append, stored_append, stored_append, hroutines]
  rfl

/-- The storage of the programs fits if the text does. -/
theorem fits_checkedAssigning (hlength : (encode content).length < 256) :
    Fits pageLayout (checkedAssigning content).image.listing := by
  refine .of_pages ?_ ?_ ?_
  · have hmessages : ∀ message ∈ ["Runtime error: division by zero",
        "Runtime error: arithmetic overflow", "Runtime error: PC out of range"],
        (encode message).length < 256 := by
      refine of_decide_eq_true ?_
      cbv
    rw [stored_checkedAssigning]
    simp only [List.forall_mem_cons] at hmessages ⊢
    simp [Storage.bytes]
    omega
  · rw [stored_checkedAssigning]
    simp [pageLayout]
  · rw [stored_checkedAssigning]
    simp [pageLayout]

/-- The storage of the programs can be loaded. -/
theorem loaded_checkedAssigning (hlength : (encode content).length < 256) :
    Loaded pageLayout (checkedAssigning content).image.listing
      (loadedMemory pageLayout (checkedAssigning content).image.listing) := by
  refine loaded_loadedMemory (fits_checkedAssigning hlength) ?_
  rw [stored_checkedAssigning]
  simp

end Assigning

/-- With a short text, the variable always has a zero, and printing it stays inside its buffer. -/
theorem short_text_stays :
    check shortText = .ok (checkedAssigning "HI") ∧
      ∀ m, (checkedAssigning "HI").Leaves pageLayout
          (loadedMemory pageLayout (checkedAssigning "HI").image.listing) m →
        Terminated m (pageLayout (.var "A")) stringSize ∧
          ∃ text, text.length < stringSize ∧
            (checkedAssigning "HI").Prints pageLayout m "A" text := by
  have hlength : (encode "HI").length < 256 := by cbv
  have htexts : ∀ content ∈ (checkedAssigning "HI").program.assignedTexts,
      EndsInBuffer content := by
    refine of_decide_eq_true ?_
    cbv
  have hboth := terminated_iff_endsInBuffer check_shortText (fits_checkedAssigning hlength)
    (loaded_checkedAssigning hlength)
  refine ⟨check_shortText, fun m hm => ?_⟩
  have hterminated := hboth.1.2 htexts m hm "A" List.mem_cons_self
  exact ⟨hterminated, (hboth.2 m "A").2 hterminated⟩

/-- With a long text, the variable is left without a zero. -/
theorem long_text_runs_over :
    check longText = .ok (checkedAssigning "ABCDEFGHIJKLMNOPQRSTUVWXYZ012345") ∧
      ∃ m, (checkedAssigning "ABCDEFGHIJKLMNOPQRSTUVWXYZ012345").Leaves pageLayout
          (loadedMemory pageLayout
            (checkedAssigning "ABCDEFGHIJKLMNOPQRSTUVWXYZ012345").image.listing) m ∧
        ¬ Terminated m (pageLayout (.var "A")) stringSize := by
  have hlength : (encode "ABCDEFGHIJKLMNOPQRSTUVWXYZ012345").length < 256 := by cbv
  have hlong : ¬ EndsInBuffer "ABCDEFGHIJKLMNOPQRSTUVWXYZ012345" := by
    refine of_decide_eq_false ?_
    cbv
  have hwell := Checked.wellFormed_of_check check_longText
  have hloaded := loaded_checkedAssigning hlength
  have hline : (checkedAssigning "ABCDEFGHIJKLMNOPQRSTUVWXYZ012345").program.lines[1]? =
      some ⟨20, .assign "A" (.text "ABCDEFGHIJKLMNOPQRSTUVWXYZ012345")⟩ := rfl
  have hsite := Checked.Site.line hline
  rcases exists_leaves_copy hwell hsite _ with ⟨k, hk, hleaves⟩
  refine ⟨check_longText, _, hleaves, fun hterminated => hlong ?_⟩
  exact (terminated_copy_literal_iff hwell (fits_checkedAssigning hlength)
    (.of_loaded hwell hloaded) hk List.mem_cons_self).1 hterminated

end LineBasic
