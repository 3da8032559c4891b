import LineBasic.Proofs.Lowering.Sites
import LineBasic.Proofs.Machine.NumberLines

/-!
# Numbers that are typed

A statement that reads a number hands each line to a routine and starts again if the routine refuses
it.  The routine takes numbers between spaces, while a machine takes numbers between blanks of any
kind, so a number on a line is refused by the routine alone if there is a tab beside it.

Main definition:

- `Checked.Judges`: what the code of a statement does with a line.

Main results:

- `scan?_byteChars`: the bytes of a line are read like its text.
- `judges_line`: the code takes the numbers between spaces, and a machine the typed numbers.
-/

namespace LineBasic

open Assembly Machine

/-! ## The bytes of a line -/

/-- The characters that the bytes of a line stand for one by one. -/
def byteChars (line : List UInt8) : List Char :=
  (line.map UInt8.toBitVec).map byteChar

/-- Bytes are the codes of the characters that they stand for. -/
theorem map_toNat_byteChars (line : List UInt8) :
    (byteChars line).map (fun c => UInt8.ofNat c.toNat) = line := by
  induction line with
  | nil => rfl
  | cons b rest ih =>
    have hb : UInt8.ofNat (byteChar b.toBitVec).toNat = b := by
      rw [toNat_byteChar]
      exact UInt8.ofNat_toNat
    exact congrArg₂ List.cons hb ih

/-- Characters of small codes are those that their codes stand for. -/
theorem byteChars_map_toNat {cs : List Char} (h : ∀ c ∈ cs, c.toNat < 128) :
    byteChars (cs.map fun c => UInt8.ofNat c.toNat) = cs := by
  induction cs with
  | nil => rfl
  | cons c rest ih =>
    rcases List.forall_mem_cons.1 h with ⟨hc, hrest⟩
    have hchar : byteChar (UInt8.ofNat c.toNat).toBitVec = c := by
      rw [byteChar_eq_iff]
      change (UInt8.ofNat c.toNat).toNat = c.toNat
      rw [UInt8.toNat_ofNat']
      omega
    exact congrArg₂ List.cons hchar (ih hrest)

/-- The bytes of a line are read as a number exactly if its text is one between spaces. -/
theorem scan?_byteChars (line : List UInt8) :
    scan? (byteChars line) = (decode? line).bind spacedNumber? := by
  rw [scan?_eq]
  apply Option.ext
  intro n
  constructor
  · intro h
    rcases Option.bind_eq_some_iff.1 h with ⟨v, hv, -⟩
    have hencode := encode_of_ascii (toNat_lt_of_signedValue? hv)
    rw [map_toNat_byteChars] at hencode
    rw [← hencode, decode?_encode, Option.bind_some, spacedNumber?, String.toList_ofList]
    exact h
  · intro h
    rcases Option.bind_eq_some_iff.1 h with ⟨text, htext, hnumber⟩
    rcases Option.bind_eq_some_iff.1 hnumber with ⟨v, hv, -⟩
    have hsmall := toNat_lt_of_signedValue? hv
    have hencode := encode_of_ascii hsmall
    rw [String.ofList_toList, encode_of_decode? htext] at hencode
    rw [hencode, byteChars_map_toNat hsmall]
    exact hnumber

/-! ## The code of a statement -/

section Statement

variable {checked : Checked} {layout : Layout} {x : String} {st : LoweringState} {q : Nat}
  {c : Computer}

/-- What the code of a statement does with a line in the buffer, of which it has been found out
whether it is a number. -/
structure Checked.Judges (checked : Checked) (layout : Layout) (x : String) (st : LoweringState)
    (q : Nat) (c : Computer) (number : Option Int16) : Prop where
  /-- The routine tells whether the line is a number and stores it if it is, and it leaves memory
  alone if it is not. -/
  returned : Eventually layout checked.image.listing (checked.Region (.input x) st q)
    (fun r d => r = q + 8 ∧ lowByte d.registers.ax = (if number.isSome then 1 else 0) ∧
      d.memory = c.memory.storeNumber (layout (.var x)) number) (q + 5) c
  /-- The statement is over if the line is a number, and else asks for another one. -/
  continued : Eventually layout checked.image.listing (checked.Region (.input x) st q)
    (fun r d => r = (if number.isSome then checked.endOf (.input x) st q else q) ∧
      d.memory = c.memory.storeNumber (layout (.var x)) number) (q + 5) c

/-- The code that reads a number. -/
def numberInputCode (x : String) : List Item :=
  .label (.inner .readNumber) :: readLine .scratch ++
    code
      [.mov .cx (.address (.var x)), .mov .dx (.address .scratch),
        callRoutine .stringToNumber, .cmp .al (.dec 0), .jump .e (.inner .readNumber)]

/-- The code of a statement that reads a number. -/
theorem codeOf_input_number (hx : checked.scope.typeOf? x = some .integer) :
    checked.codeOf (.input x) st = numberInputCode x := by
  have hstring : ¬ checked.scope.isString x = true := by simp [Scope.isString, hx]
  exact if_neg hstring

/-- From where a line is handed to the routine. -/
theorem judge_run {P : Nat → Computer → Prop} (hwell : checked.WellFormed)
    (hsite : checked.Site (.input x) st q) (hx : checked.scope.typeOf? x = some .integer)
    {text : List (BitVec 8)} (hlength : text.length < 256)
    (htext : c.memory.HoldsText (layout .scratch) text)
    (hnext : ∀ d : Computer, d.keys = c.keys →
      lowByte d.registers.ax = (if (scan? (text.map byteChar)).isSome then 1 else 0) →
      d.memory = c.memory.storeNumber (layout (.var x)) (scan? (text.map byteChar)) →
      Eventually layout checked.image.listing (checked.Region (.input x) st q) P (q + 8) d) :
    Eventually layout checked.image.listing (checked.Region (.input x) st q) P (q + 5) c := by
  have hblock := hsite.block hwell
  rw [codeOf_input_number hx] at hblock
  have hmem : (.stringToNumber, stringToNumberBody) ∈ textRoutines := by simp [textRoutines]
  obtain ⟨p, hroutine⟩ := exists_textRoutine hwell hmem
  have hinside : ∀ k, InRoutine checked.image.listing .stringToNumber k →
      checked.Region (.input x) st q k :=
    Checked.region_of_inRoutine (by simp [Stmt.calls])
  refine hblock.pass 5 2 rfl (Nat.le_of_ble_eq_true rfl) ?_
  refine hblock.callRoutine (j := 7) hroutine hinside rfl ?_
  refine stringToNumber_run (hroutine.block hinside) rfl htext hlength ?_
  intro ax flags hax
  exact hnext _ rfl hax rfl

/-- From where the answer of the routine is looked at. -/
theorem answer_run {P : Nat → Computer → Prop} (hwell : checked.WellFormed)
    (hsite : checked.Site (.input x) st q) (hx : checked.scope.typeOf? x = some .integer)
    {accepted : Bool} (hal : lowByte c.registers.ax = if accepted then 1 else 0)
    (hnext : ∀ flags, Eventually layout checked.image.listing (checked.Region (.input x) st q) P
      (if accepted then checked.endOf (.input x) st q else q) { c with flags := flags }) :
    Eventually layout checked.image.listing (checked.Region (.input x) st q) P (q + 8) c := by
  have hblock := hsite.block hwell
  rw [codeOf_input_number hx] at hblock
  have hend : checked.endOf (.input x) st q = q + 10 := by
    rw [Checked.endOf, codeOf_input_number hx]
    rfl
  rw [hend] at hnext
  refine hblock.pass 8 1 rfl (Nat.le_of_ble_eq_true rfl) ?_
  refine hblock.branch (k := 0) rfl rfl (Computer.Flags.holds?_e_sub _ _)
    (fun hrefused : lowByte c.registers.ax = 0#8 => ?_)
    (fun htaken : lowByte c.registers.ax ≠ 0#8 => ?_)
  · cases accepted with
    | false => exact hnext _
    | true => exact absurd (hal.symm.trans hrefused) (by decide)
  · cases accepted with
    | false => exact absurd hal htaken
    | true => exact hnext _

/-- The code takes a line in the buffer if it is a number between spaces. -/
theorem judges_of_holdsText (hwell : checked.WellFormed) (hsite : checked.Site (.input x) st q)
    (hx : checked.scope.typeOf? x = some .integer) {line : List UInt8}
    (hlength : line.length < 256)
    (htext : c.memory.HoldsText (layout .scratch) (line.map UInt8.toBitVec)) :
    checked.Judges layout x st q c ((decode? line).bind spacedNumber?) := by
  rw [← List.length_map UInt8.toBitVec] at hlength
  rw [← scan?_byteChars]
  constructor
  · exact judge_run hwell hsite hx hlength htext fun d _ hal hmemory => .here ⟨rfl, hal, hmemory⟩
  · refine judge_run hwell hsite hx hlength htext fun d _ hal hmemory => ?_
    exact answer_run hwell hsite hx hal fun flags => .here ⟨rfl, hmemory⟩

/-! ## The two of them -/

/-- The code takes the numbers between spaces, and a machine the typed numbers, which are the same
if there are no blanks but spaces around them.  Both ask for another line if it is no number. -/
theorem judges_line {source : String} {checked : Checked} (h : check source = .ok checked)
    {x : String} {st : LoweringState} {q : Nat} (hsite : checked.Site (.input x) st q)
    (hx : checked.scope.typeOf? x = some .integer) {line : List UInt8}
    (hlength : line.length ≤ 31) (hline : ∀ b ∈ line, b ≠ 0 ∧ b ≠ 8 ∧ b ≠ 10 ∧ b ≠ 13)
    (layout : Layout) (c : Computer)
    (htext : c.memory.HoldsText (layout .scratch) (line.map UInt8.toBitVec)) :
    checked.Judges layout x st q c ((decode? line).bind spacedNumber?) ∧
      (∀ rest, readNumber ((line ++ [lineFeed]) :: rest) =
        match decode? line with
        | none => (.error .invalidText, rest)
        | some text =>
          match typedNumber? text with
          | some n => (.ok n, rest)
          | none => readNumber rest) ∧
      ∀ text, decode? line = some text → ∀ n,
        (spacedNumber? text = some n ↔
          typedNumber? text = some n ∧ trimSpaces text.toList = trimBlanks text.toList) :=
  ⟨judges_of_holdsText (Checked.wellFormed_of_check h) hsite hx (by omega) htext,
    readNumber_line fun hmem => (hline _ hmem).2.2.1 rfl,
    fun _ _ _ => spacedNumber?_eq_some_iff⟩

end Statement

/-! ## A program that reads one number -/

/-- A program that reads a number. -/
def numberReader : String :=
  "10 INTEGER A\r\n20 INPUT A"

/-- The program with its scope. -/
def checkedNumberReader : Checked :=
  ⟨⟨[⟨10, .declare .integer ["A"]⟩, ⟨20, .input "A"⟩]⟩, ⟨⟨"GLOBAL", [⟨"A", .integer⟩]⟩, []⟩⟩

theorem check_numberReader : check numberReader = .ok checkedNumberReader := by
  cbv

/-- Where the program reads its number. -/
theorem site_numberReader :
    checkedNumberReader.Site (.input "A")
      (stateBefore checkedNumberReader.scope checkedNumberReader.program.lines 1)
      (linePosition checkedNumberReader.scope checkedNumberReader.program 1 + 1) :=
  have hline : checkedNumberReader.program.lines[1]? = some ⟨20, .input "A"⟩ := rfl
  .line hline

/-- Addresses for the program. -/
def numberReaderLayout : Layout
  | .scratch => 0x0200
  | _ => 0x0300

/-- A computer with a line in its buffer. -/
def computerWith (line : List UInt8) : Computer where
  registers := ⟨0, 0, 0, 0, 0, 0⟩
  flags := ⟨none, none, none, none⟩
  memory := fun a => (line.map UInt8.toBitVec).getD (a - 0x0200).toNat 0
  stack := []
  keys := []
  printed := []

/-- A number with a sign behind a space is taken. -/
theorem judges_signed_seven :
    checkedNumberReader.Judges numberReaderLayout "A"
      (stateBefore checkedNumberReader.scope checkedNumberReader.program.lines 1)
      (linePosition checkedNumberReader.scope checkedNumberReader.program 1 + 1)
      (computerWith [32, 43, 55]) (some 7) := by
  have hbytes : [32, 43, 55] = encode " +7" := by cbv
  have hnumber : (decode? [32, 43, 55]).bind spacedNumber? = some 7 := by
    rw [hbytes, decode?_encode]
    cbv
  have htext : (computerWith [32, 43, 55]).memory.HoldsText (numberReaderLayout .scratch)
      [32, 43, 55] :=
    ⟨by decide, by decide, by decide, by decide, by decide, by decide, rfl⟩
  have hlength : [(32 : UInt8), 43, 55].length ≤ 31 := by decide
  have hline : ∀ b ∈ [(32 : UInt8), 43, 55], b ≠ 0 ∧ b ≠ 8 ∧ b ≠ 10 ∧ b ≠ 13 := by simp
  have hjudges := (judges_line check_numberReader site_numberReader (by cbv) hlength hline
    numberReaderLayout (computerWith [32, 43, 55]) htext).1
  rwa [hnumber] at hjudges

/-- A number behind a tab is refused, though a machine takes it. -/
theorem tab_refused :
    checkedNumberReader.Judges numberReaderLayout "A"
      (stateBefore checkedNumberReader.scope checkedNumberReader.program.lines 1)
      (linePosition checkedNumberReader.scope checkedNumberReader.program 1 + 1)
      (computerWith [9, 53]) none ∧
    readNumber [[9, 53, 10]] = (.ok 5, []) := by
  have hbytes : [9, 53] = encode "\t5" := by cbv
  have hdecode : decode? [9, 53] = some "\t5" := by rw [hbytes, decode?_encode]
  constructor
  · have htext : (computerWith [9, 53]).memory.HoldsText (numberReaderLayout .scratch)
        ([9, 53].map UInt8.toBitVec) :=
      ⟨by decide, by decide, by decide, by decide, rfl⟩
    have hjudges := judges_of_holdsText (Checked.wellFormed_of_check check_numberReader)
      site_numberReader (by cbv) (by decide) htext
    have hnone : (decode? [9, 53]).bind spacedNumber? = none := by
      rw [hdecode]
      cbv
    rwa [hnone] at hjudges
  · have hnoFeed : lineFeed ∉ [9, 53] := by decide
    have hread := readNumber_line hnoFeed []
    rw [hdecode] at hread
    exact hread.trans (by cbv)

end LineBasic
