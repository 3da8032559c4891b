import LineBasic.Proofs.Machine.Console
import LineBasic.Proofs.Text.Spaces

/-!
# Lines on which numbers are typed

A line that has come in is decoded, and the blanks around its number are dropped.  Bytes of small
codes are characters of their own, and there are no others in a number.

Main results:

- `decode?_encode`: every text is decoded from its encoding.
- `encode_of_ascii`: characters of small codes are encoded by them.
- `readNumber_line`: what is read from a line behind which another one may follow.
-/

namespace LineBasic.Machine

/-! ## Bytes of small codes -/

/-- Every text is decoded from its encoding. -/
theorem decode?_encode (text : String) : decode? (encode text) = some text := by
  have hbytes : (⟨(encode text).toArray⟩ : ByteArray) = text.toByteArray := by
    rw [encode_eq_toList]
  rw [decode?, hbytes, String.fromUTF8?, dif_pos text.isValidUTF8]
  rfl

/-- A character of a small code is encoded by it. -/
theorem utf8EncodeChar_of_lt {c : Char} (h : c.toNat < 128) :
    String.utf8EncodeChar c = [UInt8.ofNat c.toNat] := by
  have hval : c.val.toNat ≤ 127 := Nat.le_of_lt_succ h
  unfold String.utf8EncodeChar
  rw [if_pos hval]
  rfl

/-- A text whose characters have small codes is encoded by them. -/
theorem encode_of_ascii {cs : List Char} (h : ∀ c ∈ cs, c.toNat < 128) :
    encode (String.ofList cs) = cs.map fun c => UInt8.ofNat c.toNat := by
  rw [encode, String.toList_ofList]
  induction cs with
  | nil => rfl
  | cons c rest ih =>
    rcases List.forall_mem_cons.1 h with ⟨hc, hrest⟩
    rw [List.flatMap_cons, utf8EncodeChar_of_lt hc, ih hrest]
    rfl

/-! ## Lines -/

/-- A line with its end is decoded like the line. -/
theorem decode?_line {line : List UInt8} (h : lineFeed ∉ line) :
    decode? (line ++ [lineFeed]) = (decode? line).map (·.push '\n') := by
  have hpush (text : String) : encode (text.push '\n') = encode text ++ [lineFeed] := by
    have hcode : String.utf8EncodeChar '\n' = [lineFeed] := by decide
    rw [encode, String.toList_push, List.flatMap_append, List.flatMap_singleton, hcode]
    rfl
  cases hline : decode? line with
  | some text =>
    rw [← encode_of_decode? hline, ← hpush, decode?_encode]
    rfl
  | none =>
    rw [Option.map_none, Option.eq_none_iff_forall_ne_some]
    intro text htext
    have hencode := encode_of_decode? htext
    rcases toList_of_isInputLine ⟨line, h, .inr rfl⟩ htext with ⟨front, hfront, hall | hall⟩
    · refine hfront (hall ▸ lineFeed_mem_encode_iff.1 ?_)
      rw [hencode]
      exact List.mem_append_right _ List.mem_cons_self
    · -- without its end the text would be what the line is decoded to
      have htext : text = (String.ofList front).push '\n' := by
        apply String.toList_injective
        rw [hall, String.toList_push, String.toList_ofList]
      rw [htext, hpush] at hencode
      rw [← List.append_cancel_right hencode, decode?_encode] at hline
      cases hline

/-- What is read from a line as a number. -/
theorem readNumber_line {line : List UInt8} (h : lineFeed ∉ line) (rest : List (List UInt8)) :
    readNumber ((line ++ [lineFeed]) :: rest) =
      match decode? line with
      | none => (.error .invalidText, rest)
      | some text =>
        match typedNumber? text with
        | some n => (.ok n, rest)
        | none => readNumber rest := by
  rw [readNumber, decode?_line h]
  cases decode? line with
  | none => rfl
  | some text =>
    have hblank : typedNumber? (text.push '\n') = typedNumber? text := typedNumber?_push rfl
    cases hnumber : typedNumber? text <;> simp only [Option.map_some, hblank, hnumber]

end LineBasic.Machine
