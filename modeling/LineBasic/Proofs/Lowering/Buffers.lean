import LineBasic.Proofs.Lowering.NumberInput
import LineBasic.Proofs.Lowering.TypedStorage

/-!
# Buffers and what is written to them

Each variable for texts has a buffer, and a text ends in it if there is a zero among the bytes of
the buffer.  Of the code that writes to variables, a declaration fills buffers with zeros, an input
leaves a zero behind the line, and whatever stores a number leaves the buffers alone, be it read
from a line or worked out.  A copy is as good as what is copied.

Main definitions:

- `Checked.Intact`: all buffers have a zero, and the texts of the program are unchanged.
- `WordCode`: code that writes words only.

Main results:

- `Assembly.exec?_memory`: which instructions leave memory alone.
- `reset_run`, `copy_run` and `readLine_run`: code that writes to buffers.
- `intact_of_wordCode`: code that writes words only leaves the buffers alone.
- `declare_run` and `input_number_run`: whole statements.
-/

namespace LineBasic

open Assembly

namespace Assembly

variable {layout : Layout} {listing : List Item} {c c' : Computer} {i : Instr} {q q' : Nat}

/-- What is written to a register leaves memory alone. -/
theorem write?_memory {w : Width} {dst : Operand} {v : BitVec w.bits}
    (h : c.write? layout w dst v = some c') (hdst : dst.isMemory = false) :
    c'.memory = c.memory := by
  unfold Computer.write? at h
  split at h
  · cases h
    rfl
  · cases h
    rfl
  · cases hdst
  · cases h

/-- Plain instructions that go on at the next one leave memory alone. -/
theorem effect?_memory (hplain : i.isPlain = true) (h : c.effect? layout i = some c') :
    c'.memory = c.memory := by
  have htarget (dst : Operand) (hdst : dst ∈ i.targets) : dst.isMemory = false := by
    cases i with
    | mov d s | add d s | sub d s | xor d s | pop d | inc d | dec d | neg d | xchg d s =>
      simp only [Instr.isPlain, List.all_eq_true, Bool.not_eq_true'] at hplain
      exact hplain dst hdst
    | _ => cases hdst
  cases i with
  | mov dst src =>
    simp only [Computer.effect?, Option.bind_eq_bind, Option.bind_eq_some_iff] at h
    rcases h with ⟨w, -, v, -, hwrite⟩
    have hsame := write?_memory hwrite (htarget dst List.mem_cons_self)
    exact hsame
  | add dst src | sub dst src | xor dst src =>
    simp only [Computer.effect?, Option.bind_eq_bind, Option.bind_eq_some_iff] at h
    rcases h with ⟨w, -, a, -, b, -, hwrite⟩
    have hsame := write?_memory hwrite (htarget dst List.mem_cons_self)
    exact hsame
  | inc dst | dec dst | neg dst =>
    simp only [Computer.effect?, Option.bind_eq_bind, Option.bind_eq_some_iff] at h
    rcases h with ⟨w, -, a, -, hwrite⟩
    have hsame := write?_memory hwrite (htarget dst List.mem_cons_self)
    exact hsame
  | xchg lhs rhs =>
    simp only [Computer.effect?, Option.bind_eq_bind, Option.bind_eq_some_iff] at h
    rcases h with ⟨w, -, a, -, b, -, m, hfirst, hsecond⟩
    have hm := write?_memory hfirst (htarget lhs List.mem_cons_self)
    exact (write?_memory hsecond (htarget rhs (by simp [Instr.targets]))).trans hm
  | pop dst =>
    simp only [Computer.effect?] at h
    split at h
    · have hsame := write?_memory h (htarget dst List.mem_cons_self)
      exact hsame
    · cases h
  | cmp lhs rhs =>
    simp only [Computer.effect?, Option.bind_eq_bind, Option.bind_eq_some_iff] at h
    rcases h with ⟨w, -, a, -, b, -, hsome⟩
    cases hsome
    rfl
  | push src | mul src | imul src =>
    simp only [Computer.effect?, Option.bind_eq_bind, Option.bind_eq_some_iff] at h
    rcases h with ⟨v, -, hsome⟩
    cases hsome
    rfl
  | div src | idiv src =>
    simp only [Computer.effect?, Option.bind_eq_bind, Option.bind_eq_some_iff] at h
    rcases h with ⟨v, -, hsome⟩
    split at hsome
    · cases hsome
    · cases hsome
      rfl
  | cwd | cld | lodsb =>
    cases h
    rfl
  | repMovsb | repStosb | int n => cases hplain
  | jmp l | jump cond l | loop l | call l | ret => cases h

/-- Plain instructions leave memory alone. -/
theorem exec?_memory (hplain : i.isPlain = true)
    (h : c.exec? layout listing q i = some (q', c')) : c'.memory = c.memory := by
  cases i with
  | jmp l | call l =>
    simp only [Computer.exec?, Option.bind_eq_bind, Option.bind_eq_some_iff] at h
    rcases h with ⟨p, -, hsome⟩
    cases hsome
    rfl
  | jump cond l =>
    simp only [Computer.exec?, Option.bind_eq_bind, Option.bind_eq_some_iff] at h
    rcases h with ⟨taken, -, hsome⟩
    split at hsome
    · rcases Option.bind_eq_some_iff.1 hsome with ⟨p, -, hjump⟩
      cases hjump
      rfl
    · cases hsome
      rfl
  | loop l =>
    simp only [Computer.exec?] at h
    split at h
    · cases h
      rfl
    · simp only [Option.bind_eq_bind, Option.bind_eq_some_iff] at h
      rcases h with ⟨p, -, hsome⟩
      cases hsome
      rfl
  | ret =>
    simp only [Computer.exec?] at h
    split at h
    · cases h
      rfl
    · cases h
  | _ =>
    simp only [Computer.exec?, Option.map_eq_some_iff] at h
    rcases h with ⟨m, heffect, hpair⟩
    cases hpair
    exact effect?_memory hplain heffect

/-- An instruction that stores a word under a label stores it there. -/
theorem exists_store_of_storesWord {l : Label} (hstores : StoresWord i l)
    (h : c.exec? layout listing q i = some (q', c')) :
    ∃ w, c'.memory = c.memory.store (layout l) .word w := by
  cases hstores with
  | constant =>
    cases h
    exact ⟨_, rfl⟩
  | @register l r =>
    cases h
    exact ⟨_, rfl⟩
  | popped =>
    simp only [Computer.exec?, Option.map_eq_some_iff, Computer.effect?] at h
    rcases h with ⟨m, heffect, hpair⟩
    cases hpair
    split at heffect
    · cases heffect
      exact ⟨_, rfl⟩
    · cases heffect

end Assembly

/-! ## Buffers that end -/

section Intact

variable {checked : Checked} {layout : Layout} {m m' : Memory}

/-- All variables for texts end inside their buffers, and the texts of the program are what they
were. -/
structure Checked.Intact (checked : Checked) (layout : Layout) (m : Memory) : Prop where
  terminated : ∀ x, ⟨x, .string⟩ ∈ checked.scope.symbols → Terminated m (layout (.var x)) stringSize
  literals : ∀ k content, .storage (.literal k) (.text content) ∈ checked.image.listing →
    m.Holds (layout (.literal k)) (Storage.text content).bytes

/-- Variables end in a memory that holds what the listing stores. -/
theorem Checked.Intact.of_loaded (hwell : checked.WellFormed)
    (h : Loaded layout checked.image.listing m) : checked.Intact layout m where
  terminated x hx := by
    have hstored := ((isBuffer_of_mem hwell hx).stored _).2 rfl
    refine ⟨BitVec.ofNat 16 0 + layout (.var x), Covers.offset (by decide) _, ?_⟩
    exact h _ _ hstored 0 0 (by decide)
  literals k content hk := h _ _ hk

/-- What is written under one label, which is not that of a text of the program, leaves the buffers
under other labels alone. -/
theorem Checked.Intact.of_write (hwell : checked.WellFormed)
    (hfits : Fits layout checked.image.listing) (h : checked.Intact layout m) {l : Label}
    {s : Storage} (hstored : .storage l s ∈ checked.image.listing) (hl : ∀ k, l ≠ .literal k)
    (hframe : ∀ a, ¬ Covers (layout l) s.bytes.length a → m' a = m a)
    (hself : ∀ x, l = .var x → ⟨x, .string⟩ ∈ checked.scope.symbols →
      Terminated m' (layout l) stringSize) : checked.Intact layout m' where
  terminated x hx := by
    by_cases hlabel : l = .var x
    · exact hlabel ▸ hself x hlabel hx
    · have hbuffer := ((isBuffer_of_mem hwell hx).stored _).2 rfl
      rcases h.terminated x hx with ⟨a, ha, hzero⟩
      refine ⟨a, ha, ?_⟩
      rw [hframe a, hzero]
      exact hfits.disjoint _ _ _ _ hbuffer hstored (fun heq => hlabel heq.symm) a ha
  literals k content hk j b hb := by
    rw [hframe, h.literals k content hk j b hb]
    refine hfits.disjoint _ _ _ _ hk hstored (fun heq => hl k heq.symm) _ (Covers.offset ?_ _)
    have hlt := (List.getElem?_eq_some_iff.1 hb).1
    have hroom := hfits.length_le _ _ hk
    rw [BitVec.toNat_ofNat]
    omega

/-- A word that is stored in a variable for numbers leaves the buffers alone. -/
theorem Checked.Intact.store (hwell : checked.WellFormed)
    (hfits : Fits layout checked.image.listing) (h : checked.Intact layout m) {x : String}
    (hx : ⟨x, .integer⟩ ∈ checked.scope.symbols) (w : BitVec 16) :
    checked.Intact layout (m.store (layout (.var x)) .word w) := by
  have hstored := ((isCell_of_mem hwell hx).stored _).2 rfl
  refine h.of_write hwell hfits hstored (fun k heq => by cases heq)
    (fun a ha => Memory.store_word_of_not_covers m ha) ?_
  intro y heq hy
  obtain rfl : y = x := Label.var.inj heq.symm
  have hboth := ((isBuffer_of_mem hwell hy).stored _).1 hstored
  cases hboth

end Intact

/-! ## Code that writes to buffers -/

section Code

variable {checked : Checked} {layout : Layout} {inside : Nat → Prop} {P : Nat → Computer → Prop}
  {q : Nat} {c : Computer} {x : String}

/-- A variable that is taken for a text holds one. -/
theorem Scope.eq_string {scope : Scope} {type : SymbolType} (htype : scope.typeOf? x = some type)
    (hstring : scope.isString x = true) : type = .string := by
  rw [Scope.isString_iff, htype] at hstring
  exact Option.some.inj hstring

/-- A variable that is reset ends at once. -/
theorem reset_run (hwell : checked.WellFormed) (hfits : Fits layout checked.image.listing)
    {type : SymbolType} (htype : checked.scope.typeOf? x = some type)
    (hx : ⟨x, type⟩ ∈ checked.scope.symbols)
    (h : Block checked.image.listing inside q (lowerReset checked.scope x))
    (hintact : checked.Intact layout c.memory)
    (hnext : ∀ d : Computer, checked.Intact layout d.memory →
      Eventually layout checked.image.listing inside P
        (q + (lowerReset checked.scope x).length) d) :
    Eventually layout checked.image.listing inside P q c := by
  by_cases hstring : checked.scope.isString x = true
  · obtain rfl := Scope.eq_string htype hstring
    rw [lowerReset, if_pos hstring] at h hnext
    have hstored := ((isBuffer_of_mem hwell hx).stored _).2 rfl
    refine h.pass 0 4 rfl (Nat.le_of_ble_eq_true rfl) (hnext _ ?_)
    change checked.Intact layout (c.memory.fill (layout (.var x))
      (lowByte (joinBytes (highByte c.registers.ax)
        (lowByte c.registers.ax ^^^ lowByte c.registers.ax))) stringSize)
    rw [lowByte_joinBytes, BitVec.xor_self]
    refine hintact.of_write hwell hfits hstored (fun k heq => by cases heq) (fun a ha => ?_) ?_
    · exact Memory.fill_of_not_covers _ (by decide) ha
    · rintro y heq -
      have hcovers := Covers.offset (k := 0#16) (n := stringSize) (by decide) (layout (.var x))
      exact ⟨_, hcovers, Memory.fill_of_covers _ (by decide) hcovers⟩
  · rw [hwell.isGlobal.eq_integer htype hstring] at hx
    rw [lowerReset, if_neg hstring] at h hnext
    refine h.pass 0 1 rfl (Nat.le_of_ble_eq_true rfl) (hnext _ ?_)
    exact hintact.store hwell hfits hx _

/-- A text is copied as a whole. -/
theorem copy_run (hwell : checked.WellFormed) (hfits : Fits layout checked.image.listing)
    (hx : ⟨x, .string⟩ ∈ checked.scope.symbols) {src : Label}
    (h : Block checked.image.listing inside q (copyString src x))
    (hintact : checked.Intact layout c.memory)
    (hcopied : Terminated (c.memory.copy (layout src) (layout (.var x)) stringSize)
      (layout (.var x)) stringSize)
    (hnext : ∀ d : Computer, checked.Intact layout d.memory →
      Eventually layout checked.image.listing inside P (q + 4) d) :
    Eventually layout checked.image.listing inside P q c := by
  have hstored := ((isBuffer_of_mem hwell hx).stored _).2 rfl
  let copied : Computer := { c with
    registers := ⟨c.registers.ax, c.registers.bx, 0, c.registers.dx, layout src + 32,
      layout (.var x) + 32⟩
    memory := c.memory.copy (layout src) (layout (.var x)) (BitVec.ofInt 16 32).toNat }
  have hpass : c.pass? layout (((copyString src x).drop 0).take 4) = some copied := rfl
  refine h.pass 0 4 hpass (Nat.le_of_ble_eq_true rfl) (hnext copied ?_)
  have hmemory : copied.memory = c.memory.copy (layout src) (layout (.var x)) stringSize := rfl
  rw [hmemory]
  refine hintact.of_write hwell hfits hstored (fun k heq => by cases heq) (fun a ha => ?_) ?_
  · exact Memory.copy_of_not_covers _ (by decide) ha
  · rintro y heq -
    exact hcopied

/-- A line is read into a buffer, which ends with it.  There may be too few keys for the line. -/
theorem readLine_run (hwell : checked.WellFormed) (hfits : Fits layout checked.image.listing)
    {l : Label} (hstored : .storage l (.zeroBytes stringSize) ∈ checked.image.listing)
    (hl : ∀ k, l ≠ .literal k) (h : Block checked.image.listing inside q (readLine l))
    (hroutines : ∀ r ∈ [Routine.readString, .newLine], ∀ k,
      InRoutine checked.image.listing r k → inside k)
    (hstuck : ∀ r d, inside r → d.step? layout checked.image.listing r = none → P r d)
    (hintact : checked.Intact layout c.memory)
    (hnext : ∀ d : Computer, checked.Intact layout d.memory →
      Terminated d.memory (layout l) stringSize → d.keys.length < c.keys.length →
      Eventually layout checked.image.listing inside P (q + 4) d) :
    Eventually layout checked.image.listing inside P q c := by
  have hread : (.readString, readStringBody) ∈ textRoutines := by simp [textRoutines]
  have hline : (.newLine, newLineBody) ∈ textRoutines := by simp [textRoutines]
  obtain ⟨p, hp⟩ := exists_textRoutine hwell hread
  obtain ⟨p', hp'⟩ := exists_textRoutine hwell hline
  have hinside := hroutines .readString (by simp)
  have hinside' := hroutines .newLine (by simp)
  refine h.pass 0 2 rfl (Nat.le_of_ble_eq_true rfl) ?_
  refine h.callRoutine (j := 2) hp hinside rfl ?_
  have hroom : (BitVec.ofInt 16 32).toNat = 31 + 1 := rfl
  refine readString_run (hp.block hinside) rfl hroom hstuck ?_
  intro d hregisters hstack hkeys hzero hframe
  refine h.callRoutine (j := 3) hp' hinside' rfl ?_
  have hterminated : Terminated d.memory (layout l) stringSize := by
    rcases hzero with ⟨k, hk, hzero⟩
    exact ⟨_, Covers.offset (Nat.lt_succ_of_le hk) _, hzero⟩
  refine newLine_run (hp'.block hinside') rfl (hnext _ ?_ hterminated hkeys)
  exact hintact.of_write hwell hfits hstored hl hframe fun _ _ _ => hterminated

/-- The storage of the buffer that lines are read into to be taken for numbers. -/
theorem storage_scratch_mem :
    .storage .scratch (.zeroBytes stringSize) ∈ checked.image.listing := by
  rw [Image.listing_eq_storage, Image.storage]
  simp

end Code

/-! ## Code that writes words -/

section WordCode

variable {checked : Checked} {layout : Layout} {inside : Nat → Prop} {q e : Nat}
  {c c' : Computer} {symbols : List Symbol} {xs ys : List Item}

/-- All instructions of the code are plain, or store a word in a variable for numbers. -/
def WordCode (symbols : List Symbol) (items : List Item) : Prop :=
  ∀ item ∈ items, ∀ i, item.instr? = some i →
    i.isPlain = true ∨ ∃ x, StoresWord i (.var x) ∧ ⟨x, .integer⟩ ∈ symbols

/-- Plain code. -/
theorem WordCode.of_plain (h : IsPlainCode xs) : WordCode symbols xs :=
  fun item hitem i hi => .inl (h item hitem i hi)

/-- An instruction that stores a word. -/
theorem WordCode.of_storesWord {i : Instr} {x : String} (h : StoresWord i (.var x))
    (hx : ⟨x, .integer⟩ ∈ symbols) : WordCode symbols [.instr i] := by
  intro item hitem j hj
  cases List.mem_singleton.1 hitem
  cases hj
  exact .inr ⟨x, h, hx⟩

/-- One piece of code behind another. -/
theorem WordCode.append (hxs : WordCode symbols xs) (hys : WordCode symbols ys) :
    WordCode symbols (xs ++ ys) :=
  List.forall_mem_append.2 ⟨hxs, hys⟩

/-- A step at an item is the execution of its instruction, or leaves the computer alone. -/
theorem Assembly.exec?_of_step? {listing : List Item} {q' : Nat} {item : Item}
    (hitem : listing[q]? = some item) (h : c.step? layout listing q = some (q', c')) :
    (∃ i, item.instr? = some i ∧ c.exec? layout listing q i = some (q', c')) ∨ c' = c := by
  rw [Computer.step?, hitem] at h
  cases item with
  | instr i | noted i _ => exact .inl ⟨i, rfl, h⟩
  | storage l s => cases h
  | _ =>
    cases h
    exact .inr rfl

/-- Code that writes words only leaves all buffers intact, as long as it is not left. -/
theorem intact_of_wordCode (hwell : checked.WellFormed)
    (hfits : Fits layout checked.image.listing) (hwords : WordCode checked.scope.symbols xs)
    (hplaced : Placed checked.image.listing q xs)
    (hinside : ∀ r, inside r → q ≤ r ∧ r < q + xs.length) {r : Nat}
    (hrun : Eventually layout checked.image.listing inside (fun r d => r = e ∧ d = c') r c)
    (hintact : checked.Intact layout c.memory) : checked.Intact layout c'.memory := by
  induction hrun with
  | here h => exact h.2 ▸ hintact
  | @step r r' c m hr hstep _ ih =>
    refine ih ?_
    rcases hinside r hr with ⟨hle, hlt⟩
    have hget := List.getElem?_eq_getElem (l := xs) (i := r - q) (by omega)
    have hitem := hplaced.get _ _ hget
    rw [Nat.add_sub_cancel' hle] at hitem
    rcases exec?_of_step? hitem hstep with ⟨i, hi, hexec⟩ | rfl
    · rcases hwords _ (List.mem_of_getElem? hget) i hi with hplain | ⟨x, hstores, hx⟩
      · rwa [exec?_memory hplain hexec]
      · rcases exists_store_of_storesWord hstores hexec with ⟨w, hmemory⟩
        rw [hmemory]
        exact hintact.store hwell hfits hx w
    · exact hintact

/-- An assignment to a variable for numbers writes words only. -/
theorem wordCode_assign {x : String} {value : Expr}
    (htype : checked.scope.typeOf? x = some .integer)
    (hx : ⟨x, .integer⟩ ∈ checked.scope.symbols) (hvalue : value.type checked.scope = .ok .integer)
    (st : LoweringState) :
    WordCode checked.scope.symbols (checked.codeOf (.assign x value) st) := by
  have hstring : ¬ checked.scope.isString x = true := by simp [Scope.isString, htype]
  cases value with
  | number n => exact .of_storesWord .constant hx
  | text content => cases hvalue
  | name y =>
    have hcode : checked.codeOf (.assign x (.name y)) st =
        code [.mov .ax (.cell (.var y))] ++ [.instr (.mov (.cell (.var x)) .ax)] := by
      simp only [Checked.codeOf, lowerStmt, lowerAssign, if_neg hstring]
      rfl
    rw [hcode]
    exact (WordCode.of_plain (.of_code rfl)).append (.of_storesWord .register hx)
  | binary op lhs rhs =>
    exact (WordCode.of_plain (isPlainCode_lowerExpr checked.scope (.binary op lhs rhs) st)).append
      (.of_storesWord .popped hx)

end WordCode

/-! ## Statements that write -/

section Statements

variable {checked : Checked} {layout : Layout} {P : Nat → Computer → Prop} {s : Stmt}
  {st : LoweringState} {q : Nat} {c : Computer} {x : String}

/-- The routines that read a line stand inside the region of a statement that reads its input. -/
theorem Checked.region_of_reads {r : Routine} (hr : r ∈ [Routine.readString, .newLine]) (k : Nat)
    (hk : InRoutine checked.image.listing r k) : checked.Region (.input x) st q k :=
  Checked.region_of_inRoutine (List.mem_of_mem_take (i := 2) hr) k hk

/-- A declaration leaves all buffers intact. -/
theorem declare_run {inside : Nat → Prop} (hwell : checked.WellFormed)
    (hfits : Fits layout checked.image.listing) {names : List String}
    (hnames : ∀ x ∈ names, upper x = x ∧ ∃ type, checked.scope.typeOf? x = some type)
    (h : Block checked.image.listing inside q (names.flatMap (lowerReset checked.scope)))
    (hintact : checked.Intact layout c.memory)
    (hnext : ∀ d : Computer, checked.Intact layout d.memory →
      Eventually layout checked.image.listing inside P
        (q + (names.flatMap (lowerReset checked.scope)).length) d) :
    Eventually layout checked.image.listing inside P q c := by
  induction names generalizing q c with
  | nil => exact hnext c hintact
  | cons x rest ih =>
    rcases List.forall_mem_cons.1 hnames with ⟨⟨hupper, type, htype⟩, hrest⟩
    have hmem := hwell.isGlobal.mem_of_typeOf? hupper htype
    rw [List.flatMap_cons] at h hnext
    refine reset_run hwell hfits htype hmem h.left hintact fun d hd => ?_
    refine ih hrest h.right hd fun d' hd' => ?_
    rw [Nat.add_assoc, ← List.length_append]
    exact hnext d' hd'

/-- A statement that reads a number leaves all buffers intact, however often it asks. -/
theorem input_number_run (hwell : checked.WellFormed) (hfits : Fits layout checked.image.listing)
    (hsite : checked.Site (.input x) st q) (htype : checked.scope.typeOf? x = some .integer)
    (hx : ⟨x, .integer⟩ ∈ checked.scope.symbols)
    (hstuck : ∀ r d, checked.Region (.input x) st q r →
      d.step? layout checked.image.listing r = none → P r d)
    (hintact : checked.Intact layout c.memory)
    (hnext : ∀ d : Computer, checked.Intact layout d.memory →
      Eventually layout checked.image.listing (checked.Region (.input x) st q) P
        (checked.endOf (.input x) st q) d) :
    Eventually layout checked.image.listing (checked.Region (.input x) st q) P q c := by
  have hblock := hsite.block hwell
  rw [codeOf_input_number htype, numberInputCode, List.cons_append] at hblock
  have hread := hblock.tail.left
  -- each line that is refused has taken a key at least
  generalize hkeys : c.keys.length = keys
  induction keys using Nat.strongRecOn generalizing c with
  | ind keys ih =>
    refine hblock.pass 0 1 rfl (Nat.le_of_ble_eq_true rfl) ?_
    refine readLine_run hwell hfits storage_scratch_mem (fun k heq => by cases heq) hread
      (fun r hr k hk => Checked.region_of_reads hr k hk) hstuck hintact
      fun d hd hterminated hfewer => ?_
    rcases hterminated.exists_holdsText (by decide) with ⟨text, hlength, htext⟩
    refine judge_run hwell hsite htype (Nat.lt_trans hlength (by decide)) htext
      fun d' hsame hal hmemory => ?_
    have hd' : checked.Intact layout d'.memory := by
      rw [hmemory]
      cases scan? (text.map byteChar) with
      | none => exact hd
      | some n => exact hd.store hwell hfits hx _
    refine answer_run hwell hsite htype hal fun flags => ?_
    by_cases haccepted : (scan? (text.map byteChar)).isSome = true
    · rw [if_pos haccepted]
      exact hnext _ hd'
    · rw [if_neg haccepted]
      refine ih _ ?_ hd' rfl
      change d'.keys.length < keys
      rw [hsame, ← hkeys]
      exact hfewer

end Statements

end LineBasic
