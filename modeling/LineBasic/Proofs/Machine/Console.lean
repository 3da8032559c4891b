import LineBasic.Machine.Console
import LineBasic.Proofs.Text.Decimal

/-!
# Lines of input and of output

The byte that ends a line is the code of one character and part of the code of no other.  So a
line of input has its line feed behind the text that is read from it, and a text without line
feeds stays on its line when it is written.

Main definitions:

- `IsSingleLine`: texts without line feeds.
- `IsInputLine`: bytes with no line feed but the last one.

Main results:

- `lineFeed_mem_encode_iff`: bytes that end lines come from characters that do.
- `isInputLine_of_mem_inputLines`: an input is cut behind its line feeds.
- `isSingleLine_of_readText`: what is read from a line is on one line.
- `flatten_inputLines` and `inputLines_flatten_of_append`: the lines of an input are its bytes,
  and so are those behind any of them.
- `Output.written_of_write` and `Output.exists_cut_of_write`: what an output takes.
-/

namespace LineBasic.Machine

/-- A text without line feeds. -/
def IsSingleLine (text : String) : Prop :=
  '\n' ∉ text.toList

/-! ## Bytes -/

/-- A text is encoded character by character. -/
theorem encode_append (a b : String) : encode (a ++ b) = encode a ++ encode b := by
  simp [encode, String.toList_append]

/-- The byte that ends a line is no part of the code of another character. -/
theorem lineFeed_mem_utf8EncodeChar_iff {c : Char} :
    lineFeed ∈ String.utf8EncodeChar c ↔ c = '\n' := by
  constructor
  · intro h
    have hbyte (n : Nat) (hn : lineFeed = UInt8.ofNat n) : n % 256 = 10 := by
      have hval := congrArg UInt8.toNat hn
      rw [UInt8.toNat_ofNat'] at hval
      exact hval.symm
    have hval : c.val.toNat = 10 := by
      unfold String.utf8EncodeChar at h
      dsimp only at h
      split at h
      · have hten := hbyte _ (List.mem_singleton.1 h)
        omega
      · -- the bytes of longer codes are all greater than 127
        split at h
        · simp only [List.mem_cons, List.not_mem_nil, or_false] at h
          rcases h with h | h <;> have hten := hbyte _ h <;> omega
        · split at h
          · simp only [List.mem_cons, List.not_mem_nil, or_false] at h
            rcases h with h | h | h <;> have hten := hbyte _ h <;> omega
          · simp only [List.mem_cons, List.not_mem_nil, or_false] at h
            rcases h with h | h | h | h <;> have hten := hbyte _ h <;> omega
    exact Char.ext (UInt32.toNat_inj.1 hval)
  · rintro rfl
    decide

/-- Bytes that end lines come from characters that do. -/
theorem lineFeed_mem_encode_iff {text : String} :
    lineFeed ∈ encode text ↔ '\n' ∈ text.toList := by
  rw [encode, List.mem_flatMap]
  constructor
  · rintro ⟨c, hc, hbyte⟩
    rwa [← lineFeed_mem_utf8EncodeChar_iff.1 hbyte]
  · exact fun h => ⟨_, h, lineFeed_mem_utf8EncodeChar_iff.2 rfl⟩

/-- The encoding of a text is how it is kept. -/
theorem encode_eq_toList (text : String) : encode text = text.toByteArray.data.toList := by
  rw [← String.utf8Encode_toList, List.utf8Encode, List.toList_data_toByteArray]
  rfl

/-- Bytes that are decoded encode the text that they are decoded to. -/
theorem encode_of_decode? {bytes : List UInt8} {text : String} (h : decode? bytes = some text) :
    encode text = bytes := by
  rw [encode_eq_toList]
  unfold decode? String.fromUTF8? at h
  split at h
  · cases h
    rfl
  · cases h

/-! ## Input -/

/-- Bytes with no line feed but the last one. -/
def IsInputLine (line : List UInt8) : Prop :=
  ∃ front, lineFeed ∉ front ∧ (line = front ∨ line = front ++ [lineFeed])

/-- An input is cut behind its line feeds. -/
theorem isInputLine_of_mem_inputLines {bytes : List UInt8} :
    ∀ line ∈ inputLines bytes, IsInputLine line := by
  have hone (b : UInt8) : IsInputLine [b] := by
    by_cases hb : b = lineFeed
    · exact ⟨[], by simp, .inr (by rw [hb]; rfl)⟩
    · exact ⟨[b], by simpa [eq_comm] using hb, .inl rfl⟩
  induction bytes with
  | nil => simp [inputLines]
  | cons b bytes ih =>
    have hcons : inputLines (b :: bytes) = consByte b (inputLines bytes) := rfl
    rw [hcons]
    cases hlater : inputLines bytes with
    | nil => simpa [consByte] using hone b
    | cons line rest =>
      rw [hlater] at ih
      rcases List.forall_mem_cons.1 ih with ⟨⟨front, hfront, hline⟩, hrest⟩
      rw [consByte]
      split
      · exact List.forall_mem_cons.2 ⟨hone b, ih⟩
      · rename_i hb
        refine List.forall_mem_cons.2 ⟨⟨b :: front, ?_, ?_⟩, hrest⟩
        · exact fun hmem => (List.mem_cons.1 hmem).elim (fun h => hb h.symm) hfront
        · exact hline.imp (congrArg (b :: ·)) (congrArg (b :: ·))

/-- A line of input that is text has one line feed at most, and it is the last character. -/
theorem toList_of_isInputLine {line : List UInt8} (hline : IsInputLine line) {text : String}
    (h : decode? line = some text) :
    ∃ front : List Char, '\n' ∉ front ∧ (text.toList = front ∨ text.toList = front ++ ['\n']) := by
  have hencode := encode_of_decode? h
  rcases hline with ⟨front, hfront, rfl | rfl⟩
  · rw [← hencode, lineFeed_mem_encode_iff] at hfront
    exact ⟨text.toList, hfront, .inl rfl⟩
  · rcases List.eq_nil_or_concat text.toList with hnil | ⟨before, last, hsplit⟩
    · simp [encode, hnil] at hencode
    · rw [List.concat_eq_append] at hsplit
      rw [encode, hsplit, List.flatMap_append, List.flatMap_singleton] at hencode
      -- the last byte is that of the last character
      have hlast : last = '\n' := by
        have hend := congrArg List.getLast? hencode
        rcases hcode : (String.utf8EncodeChar last).getLast? with _ | b
        · exact absurd (List.getLast?_eq_none_iff.1 hcode) String.utf8EncodeChar_ne_nil
        · have hb : b = lineFeed := by simpa [hcode] using hend
          exact lineFeed_mem_utf8EncodeChar_iff.1 (hb ▸ List.mem_of_getLast? hcode)
      subst hlast
      have hcode : String.utf8EncodeChar '\n' = [lineFeed] := by decide
      rw [hcode] at hencode
      have hbefore := (List.append_inj' hencode rfl).1
      refine ⟨before, fun hmem => hfront ?_, .inr hsplit⟩
      rw [← hbefore]
      exact List.mem_flatMap.2 ⟨_, hmem, lineFeed_mem_utf8EncodeChar_iff.2 rfl⟩

/-- Without its end, a text with no line feed but the last character is on one line. -/
theorem isSingleLine_stripLineEnd {text : String} {front : List Char} (hfront : '\n' ∉ front)
    (h : text.toList = front ∨ text.toList = front ++ ['\n']) :
    IsSingleLine (stripLineEnd text) := by
  unfold IsSingleLine stripLineEnd
  rcases h with h | h
  · have hreverse : '\n' ∉ text.toList.reverse := by rwa [List.mem_reverse, h]
    split
    · rename_i heq
      simp [heq] at hreverse
    · rename_i heq
      simp [heq] at hreverse
    · rwa [h]
  · have hreverse : text.toList.reverse = '\n' :: front.reverse := by simp [h]
    rw [hreverse]
    split
    · rename_i rest heq
      injection heq with _ heq
      rw [String.toList_ofList, List.mem_reverse]
      intro hmem
      exact hfront (List.mem_reverse.1 (by rw [heq]; exact List.mem_cons_of_mem _ hmem))
    · rename_i rest _ heq
      injection heq with _ heq
      rw [← heq, List.reverse_reverse, String.toList_ofList]
      exact hfront
    · rename_i hnone
      exact absurd rfl (hnone _)

/-- What is read from lines of input is on one line, and lines of input are left. -/
theorem isSingleLine_of_readText {input rest : List (List UInt8)}
    (hinput : ∀ line ∈ input, IsInputLine line) {text : String}
    (h : readText input = (.ok text, rest)) : IsSingleLine text := by
  cases input with
  | nil => cases h
  | cons line later =>
    simp only [readText] at h
    split at h
    · rename_i found hfound
      cases h
      have hline := hinput line List.mem_cons_self
      rcases toList_of_isInputLine hline hfound with ⟨front, hfront, htext⟩
      exact isSingleLine_stripLineEnd hfront htext
    · cases h

/-- A text is read off the first line. -/
theorem suffix_of_readText {input rest : List (List UInt8)} {answer : Except ReadError String}
    (h : readText input = (answer, rest)) : rest <:+ input := by
  cases input with
  | nil =>
    cases h
    exact List.suffix_refl _
  | cons line later =>
    simp only [readText] at h
    split at h <;> cases h <;> exact List.suffix_cons ..

/-- A number is read off one of the lines, and the lines in front of it are passed over. -/
theorem suffix_of_readNumber {input rest : List (List UInt8)} {answer : Except ReadError Int16}
    (h : readNumber input = (answer, rest)) : rest <:+ input := by
  induction input with
  | nil =>
    cases h
    exact List.suffix_refl _
  | cons line later ih =>
    simp only [readNumber] at h
    split at h
    · cases h
      exact List.suffix_cons ..
    · split at h
      · cases h
        exact List.suffix_cons ..
      · exact (ih h).trans (List.suffix_cons ..)

/-- The lines that are left behind a text are lines of the input. -/
theorem subset_of_readText {input rest : List (List UInt8)} {answer : Except ReadError String}
    (h : readText input = (answer, rest)) : rest ⊆ input :=
  (suffix_of_readText h).subset

/-- The lines that are left behind a number are lines of the input. -/
theorem subset_of_readNumber {input rest : List (List UInt8)} {answer : Except ReadError Int16}
    (h : readNumber input = (answer, rest)) : rest ⊆ input :=
  (suffix_of_readNumber h).subset

/-! ## Lines and bytes -/

theorem inputLines_cons (b : UInt8) (bytes : List UInt8) :
    inputLines (b :: bytes) = consByte b (inputLines bytes) :=
  rfl

/-- The lines of an input have all of its bytes, in their order. -/
@[simp] theorem flatten_inputLines (bytes : List UInt8) : (inputLines bytes).flatten = bytes := by
  induction bytes with
  | nil => rfl
  | cons b bytes ih =>
    rw [inputLines_cons]
    cases hlater : inputLines bytes with
    | nil =>
      rw [hlater] at ih
      rw [← ih]
      rfl
    | cons line rest =>
      rw [hlater, List.flatten_cons] at ih
      rw [consByte]
      split <;> simp [← ih]

/-- The lines behind some lines of an input are those of the bytes that are left, and there are
none unless each of the lines in front has its line feed. -/
theorem inputLines_flatten_of_append {bytes : List UInt8} {front later : List (List UInt8)}
    (h : inputLines bytes = front ++ later) :
    inputLines later.flatten = later ∧
      (later = [] ∨ ∀ line ∈ front, line.getLast? = some lineFeed) := by
  induction bytes generalizing front with
  | nil =>
    rcases List.append_eq_nil_iff.1 h.symm with ⟨rfl, rfl⟩
    exact ⟨rfl, .inl rfl⟩
  | cons b bytes ih =>
    cases front with
    | nil =>
      have hall : inputLines (b :: bytes) = later := h
      exact ⟨by rw [← hall, flatten_inputLines], .inr (by simp)⟩
    | cons first front =>
      rw [inputLines_cons] at h
      cases hlines : inputLines bytes with
      | nil =>
        rw [hlines, consByte, List.cons_append] at h
        rcases List.append_eq_nil_iff.1 (List.cons.inj h).2.symm with ⟨rfl, rfl⟩
        exact ⟨rfl, .inl rfl⟩
      | cons line rest =>
        rw [hlines, consByte] at h
        split at h
        · rename_i hb
          rcases List.cons.inj h with ⟨rfl, hrest⟩
          rcases ih (hlines.trans hrest) with ⟨hlater, hends⟩
          refine ⟨hlater, hends.imp_right fun hends => List.forall_mem_cons.2 ⟨?_, hends⟩⟩
          rw [hb]
          rfl
        · rcases List.cons.inj h with ⟨rfl, rfl⟩
          have hbehind : inputLines bytes = (line :: front) ++ later := hlines
          rcases ih hbehind with ⟨hlater, hends⟩
          refine ⟨hlater, hends.imp_right fun hends => ?_⟩
          rcases List.forall_mem_cons.1 hends with ⟨hline, hfront⟩
          refine List.forall_mem_cons.2 ⟨?_, hfront⟩
          rw [List.getLast?_cons, hline]
          rfl

/-! ## Output -/

/-- All of a text is written if it is reported so. -/
theorem Output.written_of_write {o output : Output} {text : String}
    (h : o.write text = (true, output)) :
    output.written.toList = o.written.toList ++ encode text := by
  unfold Output.write at h
  cases hroom : o.room with
  | none =>
    simp only [hroom] at h
    cases h
    simp
  | some n =>
    simp only [hroom, Prod.mk.injEq, decide_eq_true_eq] at h
    rcases h with ⟨hle, rfl⟩
    simp [List.take_of_length_le hle]

/-- An output without a limit takes everything, and stays so. -/
theorem Output.of_room_eq_none {o output : Output} {text : String} {complete : Bool}
    (hroom : o.room = none) (hwrite : o.write text = (complete, output)) :
    complete = true ∧ output.room = none := by
  simp only [Output.write, hroom] at hwrite
  cases hwrite
  exact ⟨rfl, rfl⟩

/-- A text of which not all is written is cut where the room of the output ends. -/
theorem Output.exists_cut_of_write {o output : Output} {text : String}
    (h : o.write text = (false, output)) :
    ∃ printed missing, encode text = printed ++ missing ∧ missing ≠ [] ∧
      output.written.toList = o.written.toList ++ printed ∧ o.room = some printed.length ∧
      output.room = some 0 := by
  unfold Output.write at h
  cases hroom : o.room with
  | none =>
    simp only [hroom] at h
    cases h
  | some n =>
    simp only [hroom, Prod.mk.injEq, decide_eq_false_iff_not, Nat.not_le] at h
    rcases h with ⟨hlt, rfl⟩
    refine ⟨(encode text).take n, (encode text).drop n, (List.take_append_drop ..).symm, ?_, ?_, ?_,
      ?_⟩
    · exact List.ne_nil_of_length_pos (by rw [List.length_drop]; omega)
    · simp
    · rw [List.length_take, Nat.min_eq_left (Nat.le_of_lt hlt)]
    · exact congrArg some (Nat.sub_eq_zero_of_le (Nat.le_of_lt hlt))

/-! ## Values -/

/-- Numbers are printed on one line. -/
theorem isSingleLine_toString (n : Int16) : IsSingleLine (toString n) := by
  intro hmem
  have hmem' : '\n' ∈ (toString n.toInt).toList := hmem
  rcases isDigit_or_minus_of_mem_toString hmem' with hdigit | hminus
  · cases hdigit
  · cases hminus

end LineBasic.Machine
