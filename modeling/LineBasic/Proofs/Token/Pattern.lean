import LineBasic.Token.Piece
import Mathlib.Data.List.TakeWhile

/-!
# Patterns of tokens

Every kind of piece has a pattern, which says how pieces of this kind are spelled.  A text is cut
by the longest match: a piece is the longest beginning of the text that has a pattern.  Where no
beginning has one, the text is faulty, and what is skipped of it depends on its first character.

Main definitions:

- `signs`: the tokens with a fixed spelling.
- `Matches`: the patterns.
- `Skips`: what is skipped where nothing matches.
- `CutsOff` and `Cut`: one piece by the longest match, and a whole text.

Main results:

- `Piece.covers_of_matches`: no beginning of a text that matches is longer than its first piece.
- `cut_pieces`: the pieces of a text are cut by the longest match.
- `matches_of_mem_pieces`: pieces that are no faults are spelled by their patterns.
-/

namespace LineBasic

/-! ## Patterns -/

/-- The tokens with a fixed spelling; one of them has two. -/
def signs : List (Token × List Char) :=
  [(.plus, ['+']), (.minus, ['-']), (.times, ['*']), (.divide, ['/']), (.becomes, ['=']),
    (.equal, ['=', '=']), (.notEqual, ['!', '=']), (.notEqual, ['<', '>']), (.greater, ['>']),
    (.greaterEqual, ['>', '=']), (.less, ['<']), (.lessEqual, ['<', '=']), (.leftParen, ['(']),
    (.rightParen, [')']), (.comma, [',']), (.lineBreak, ['\r', '\n'])]

/-- The spellings of pieces that are not faulty. -/
inductive Matches : PieceKind → List Char → Prop where
  | number {w} : w ≠ [] → (∀ c ∈ w, c.isDigit = true) →
      Matches (.token (.number (String.ofList w))) w
  | text {w} : (∀ c ∈ w, isQuotable c = true) →
      Matches (.token (.text (String.ofList w))) ('"' :: w ++ ['"'])
  | word {c w} : c.isAlpha = true → (∀ d ∈ w, d.isAlphanum = true) →
      Matches (.token (.ofWord (String.ofList (c :: w)))) (c :: w)
  | sign {t w} : (t, w) ∈ signs → Matches (.token t) w
  | blank {w} : w ≠ [] → (∀ c ∈ w, isGap c = true) → Matches .blank w
  | comment {w} : (∀ c ∈ w, isRemark c = true) → Matches .comment ('#' :: w)

/-- What is skipped in front of `rest` where nothing matches: a text that is not closed up to the
end of its line, and one character otherwise. -/
inductive Skips : LexicalFault → List Char → List Char → Prop where
  | unterminated {w rest} : (∀ c ∈ w, c ≠ '\r' ∧ c ≠ '\n') →
      (∀ c ∈ rest.head?, c = '\r' ∨ c = '\n') → Skips .unterminatedText ('"' :: w) rest
  | lineBreak {c rest} : c = '\r' ∨ c = '\n' → Skips .malformedLineBreak [c] rest
  | exclamation {rest} : Skips .loneExclamation ['!'] rest
  | character {c rest} : c ∉ ['"', '\r', '\n', '!'] → Skips (.invalidCharacter c) [c] rest

/-- A piece is cut off in front of `rest` by the longest match. -/
inductive CutsOff : Piece → List Char → Prop where
  | longest {kind w rest} : Matches kind w →
      (∀ kind' w', w' <+: w ++ rest → Matches kind' w' → w'.length ≤ w.length) →
      CutsOff ⟨kind, w⟩ rest
  | faulty {f w rest} : (∀ kind' w', w' <+: w ++ rest → ¬ Matches kind' w') → Skips f w rest →
      CutsOff ⟨.fault f, w⟩ rest

/-- A text is cut into pieces by the longest match. -/
inductive Cut : List Char → List Piece → Prop where
  | nil : Cut [] []
  | cons {piece rest ps} : CutsOff piece rest → Cut rest ps → Cut (piece.text ++ rest) (piece :: ps)

/-! ## Runs of characters -/

/-- A beginning of a text whose characters are all of a class is no longer than the run of them. -/
theorem length_le_of_forall {p : Char → Bool} {w rest : List Char} (hbegins : w <+: rest)
    (h : ∀ c ∈ w, p c = true) : w.length ≤ (rest.takeWhile p).length := by
  rcases hbegins with ⟨behind, rfl⟩
  rw [List.takeWhile_append_of_pos h, List.length_append]
  omega

/-- The characters of a run are of its class. -/
theorem forall_mem_takeWhile {p : Char → Bool} {rest : List Char} :
    ∀ c ∈ rest.takeWhile p, p c = true :=
  fun _ h => List.mem_takeWhile_imp h

namespace Piece

variable {c : Char} {rest : List Char}

/-! ## The first character -/

theorem first_of_gap (h : isGap c = true) :
    first c rest = spanning isGap (fun _ => .blank) c rest := by
  rw [first, if_pos h]

theorem first_of_hash : first '#' rest = spanning isRemark (fun _ => .comment) '#' rest := rfl

theorem first_of_digit (h : c.isDigit = true) :
    first c rest = spanning Char.isDigit (fun s => .token (.number s)) c rest := by
  have hgap : isGap c = false := by
    rw [← Bool.not_eq_true]
    intro hgap
    rcases (by simpa [isGap] using hgap : c = ' ' ∨ c = '\t') with rfl | rfl <;> cases h
  have hhash : c ≠ '#' := by
    rintro rfl
    cases h
  rw [first, if_neg (by simp [hgap]), if_neg hhash, if_pos h]

theorem first_of_alpha (h : c.isAlpha = true) :
    first c rest = spanning Char.isAlphanum (fun s => .token (.ofWord s)) c rest := by
  have hgap : isGap c = false := by
    rw [← Bool.not_eq_true]
    intro hgap
    rcases (by simpa [isGap] using hgap : c = ' ' ∨ c = '\t') with rfl | rfl <;> cases h
  have hhash : c ≠ '#' := by
    rintro rfl
    cases h
  have hdigit := isDigit_eq_false_of_isAlpha h
  rw [first, if_neg (by simp [hgap]), if_neg hhash, if_neg (by simp [hdigit]), if_pos h]

theorem first_of_quote : first '"' rest = quoted rest := rfl

theorem first_of_single {t : Token} (h : singleToken? c = some t) :
    first c rest = symbol c rest := by
  unfold singleToken? at h
  split at h <;> first | rfl | cases h

theorem first_of_pair {d : Char} {t : Token} (h : pairToken? c d = some t) :
    first c rest = symbol c rest := by
  unfold pairToken? at h
  split at h <;> first | rfl | cases h

end Piece

/-! ## Signs -/

/-- The token of one or two characters. -/
def signToken? : List Char → Option Token
  | [c] => singleToken? c
  | [c, d] => pairToken? c d
  | _ => none

/-- The signs are the tokens of one and of two characters. -/
theorem mem_signs_iff {t : Token} {w : List Char} : (t, w) ∈ signs ↔ signToken? w = some t := by
  constructor
  · have hall : ∀ s ∈ signs, signToken? s.2 = some s.1 := by decide
    exact hall (t, w)
  · intro h
    unfold signToken? at h
    split at h
    · unfold singleToken? at h
      split at h <;> cases h <;> simp [signs]
    · unfold pairToken? at h
      split at h <;> cases h <;> simp [signs]
    · cases h

namespace Piece

/-- The piece that begins with an operator, a mark or a stray character has two characters if
they are a sign, and one otherwise. -/
theorem symbol_cases (c : Char) (rest : List Char) :
    (∃ d more t, rest = d :: more ∧ pairToken? c d = some t ∧
        symbol c rest = (⟨.token t, [c, d]⟩, more)) ∨
      (∀ d more, rest = d :: more → pairToken? c d = none) ∧
        symbol c rest = (⟨singleKind c, [c]⟩, rest) := by
  unfold symbol
  split
  · exact .inr ⟨by simp, rfl⟩
  · rename_i d more
    split
    · rename_i t ht
      exact .inl ⟨d, more, t, rfl, ht, rfl⟩
    · rename_i hnone
      refine .inr ⟨?_, rfl⟩
      rintro _ _ ⟨⟩
      exact hnone

/-- A text that is closed is a token. -/
theorem quoted_of_closed {w behind : List Char} (h : ∀ d ∈ w, isQuotable d = true) :
    quoted (w ++ '"' :: behind) =
      (⟨.token (.text (String.ofList w)), '"' :: w ++ ['"']⟩, behind) := by
  have htake : (w ++ '"' :: behind).takeWhile isQuotable = w := by
    rw [List.takeWhile_append_of_pos h]
    simp [isQuotable]
  have hdrop : (w ++ '"' :: behind).dropWhile isQuotable = '"' :: behind := by
    rw [List.dropWhile_append_of_pos h]
    simp [isQuotable]
  rw [quoted, htake, hdrop]
  rfl

/-- A text that is not closed skips all that may be quoted. -/
theorem quoted_of_open (h : ∀ behind, rest.dropWhile isQuotable ≠ '"' :: behind) :
    quoted rest =
      (⟨.fault .unterminatedText, '"' :: rest.takeWhile isQuotable⟩,
        rest.dropWhile isQuotable) := by
  unfold quoted
  dsimp only
  split
  · rename_i behind heq
    exact absurd heq (h behind)
  · rfl

/-! ## The longest match -/

/-- A piece is no fault, and no shorter than some length. -/
def Covers (piece : Piece) (length : Nat) : Prop :=
  (∀ f, piece.kind ≠ .fault f) ∧ length ≤ piece.text.length

/-- A run of characters of a class covers every beginning of the text that is one. -/
theorem covers_spanning {p : Char → Bool} {kind : String → PieceKind}
    (hkind : ∀ s f, kind s ≠ .fault f) {w : List Char} (hbegins : w <+: rest)
    (h : ∀ d ∈ w, p d = true) : (spanning p kind c rest).1.Covers (c :: w).length :=
  ⟨fun f => hkind _ f, Nat.succ_le_succ (length_le_of_forall hbegins h)⟩

/-- No beginning of a text that matches a pattern is longer than its first piece, which is then
no fault. -/
theorem covers_of_matches {kind : PieceKind} {w : List Char} (hbegins : w <+: c :: rest)
    (h : Matches kind w) : (first c rest).1.Covers w.length := by
  cases h with
  | number hne hdigits =>
    cases w with
    | nil => exact absurd rfl hne
    | cons d u =>
      rcases List.cons_prefix_cons.1 hbegins with ⟨rfl, hu⟩
      rcases List.forall_mem_cons.1 hdigits with ⟨hd, hrest⟩
      rw [first_of_digit hd]
      exact covers_spanning (by simp) hu hrest
  | @text u hquotable =>
    rcases List.cons_prefix_cons.1 hbegins with ⟨rfl, behind, hrest⟩
    have hclosed : rest = u ++ '"' :: behind := by
      rw [← hrest]
      simp
    rw [hclosed, first_of_quote, quoted_of_closed hquotable]
    exact ⟨by simp, by simp⟩
  | @word d u halpha halnum =>
    rcases List.cons_prefix_cons.1 hbegins with ⟨rfl, hu⟩
    rw [first_of_alpha halpha]
    exact covers_spanning (by simp) hu halnum
  | @sign t w hsign =>
    rw [mem_signs_iff] at hsign
    unfold signToken? at hsign
    split at hsign
    · rcases List.cons_prefix_cons.1 hbegins with ⟨rfl, -⟩
      rw [first_of_single hsign]
      rcases symbol_cases _ rest with ⟨d, more, t, -, -, heq⟩ | ⟨-, heq⟩
      · rw [heq]
        exact ⟨by simp, by simp⟩
      · rw [heq, singleKind, hsign]
        exact ⟨by simp, by simp⟩
    · rename_i d e
      rcases List.cons_prefix_cons.1 hbegins with ⟨rfl, behind, hrest⟩
      rw [first_of_pair hsign]
      rcases symbol_cases _ rest with ⟨d, more, t, -, -, heq⟩ | ⟨hnone, -⟩
      · rw [heq]
        exact ⟨by simp, by simp⟩
      · have hpair := hnone e behind hrest.symm
        rw [hsign] at hpair
        cases hpair
    · cases hsign
  | blank hne hgaps =>
    cases w with
    | nil => exact absurd rfl hne
    | cons d u =>
      rcases List.cons_prefix_cons.1 hbegins with ⟨rfl, hu⟩
      rcases List.forall_mem_cons.1 hgaps with ⟨hd, hrest⟩
      rw [first_of_gap hd]
      exact covers_spanning (by simp) hu hrest
  | comment hremark =>
    rcases List.cons_prefix_cons.1 hbegins with ⟨rfl, hu⟩
    rw [first_of_hash]
    exact covers_spanning (by simp) hu hremark

/-- A first piece that matches a pattern is the longest match. -/
theorem cutsOff_of_matches (h : Matches (first c rest).1.kind (first c rest).1.text) :
    CutsOff (first c rest).1 (first c rest).2 := by
  have hall := first_text_append c rest
  refine .longest h fun kind' w' hbegins hmatches => ?_
  rw [hall] at hbegins
  exact (covers_of_matches hbegins hmatches).2

/-- Where the first piece is a fault, nothing matches. -/
theorem cutsOff_of_skips {f : LexicalFault} (hkind : (first c rest).1.kind = .fault f)
    (h : Skips f (first c rest).1.text (first c rest).2) :
    CutsOff (first c rest).1 (first c rest).2 := by
  have hall := first_text_append c rest
  have hfaulty : CutsOff ⟨.fault f, (first c rest).1.text⟩ (first c rest).2 := by
    refine .faulty (fun kind' w' hbegins hmatches => ?_) h
    rw [hall] at hbegins
    exact (covers_of_matches hbegins hmatches).1 f hkind
  rwa [← hkind] at hfaulty

/-- The characters of a run that begins with one of its class. -/
theorem forall_mem_spanning {p : Char → Bool} {c : Char} {rest : List Char} (h : p c = true) :
    ∀ d ∈ c :: rest.takeWhile p, p d = true :=
  List.forall_mem_cons.2 ⟨h, forall_mem_takeWhile⟩

/-- A quote begins a text, or skips what stands on its line. -/
theorem cutsOff_quote : CutsOff (first '"' rest).1 (first '"' rest).2 := by
  have hrun : ∀ d ∈ rest.takeWhile isQuotable, isQuotable d = true := forall_mem_takeWhile
  by_cases hclosed : ∃ behind, rest.dropWhile isQuotable = '"' :: behind
  · rcases hclosed with ⟨behind, hbehind⟩
    have hsplit := List.takeWhile_append_dropWhile (p := isQuotable) (l := rest)
    rw [hbehind] at hsplit
    refine cutsOff_of_matches ?_
    rw [← hsplit, first_of_quote, quoted_of_closed hrun]
    exact .text hrun
  · have hopen := quoted_of_open fun behind hbehind => hclosed ⟨behind, hbehind⟩
    have hkind : (first '"' rest).1.kind = .fault .unterminatedText := by
      rw [first_of_quote, hopen]
    refine cutsOff_of_skips hkind ?_
    rw [first_of_quote, hopen]
    refine .unterminated (fun d hd => ?_) fun d hd => ?_
    · have hquotable := hrun d hd
      simp only [isQuotable, Bool.and_eq_true, bne_iff_ne] at hquotable
      exact ⟨hquotable.1.2, hquotable.2⟩
    · have hstop := List.head?_dropWhile_not isQuotable rest
      rw [Option.mem_def.1 hd] at hstop
      have hquote : d ≠ '"' := by
        rintro rfl
        rcases List.head?_eq_some_iff.1 hd with ⟨behind, hbehind⟩
        exact hclosed ⟨behind, hbehind⟩
      simp only [isQuotable, Bool.and_eq_false_iff, bne_eq_false_iff_eq] at hstop
      rcases hstop with (h | hreturn) | hfeed
      · exact absurd h hquote
      · exact .inl hreturn
      · exact .inr hfeed

/-- A sign, or a single character where nothing matches. -/
theorem cutsOff_symbol (hfirst : first c rest = symbol c rest) (hquote : c ≠ '"') :
    CutsOff (first c rest).1 (first c rest).2 := by
  rcases symbol_cases c rest with ⟨d, more, t, -, ht, heq⟩ | ⟨-, heq⟩
  · refine cutsOff_of_matches ?_
    rw [hfirst, heq]
    exact .sign (mem_signs_iff.2 ht)
  · cases ht : singleToken? c with
    | some t =>
      refine cutsOff_of_matches ?_
      rw [hfirst, heq, singleKind, ht]
      exact .sign (mem_signs_iff.2 ht)
    | none =>
      have hkind : (first c rest).1.kind = .fault (.ofChar c) := by
        rw [hfirst, heq, singleKind, ht]
      refine cutsOff_of_skips hkind ?_
      rw [hfirst, heq]
      unfold LexicalFault.ofChar
      split
      · exact .lineBreak (.inl rfl)
      · exact .lineBreak (.inr rfl)
      · exact .exclamation
      · rename_i hreturn hfeed hmark
        refine .character ?_
        simp only [List.mem_cons, List.not_mem_nil, or_false, not_or]
        exact ⟨hquote, hreturn, hfeed, hmark⟩

/-- The first piece of a text is cut off by the longest match. -/
theorem cutsOff_first (c : Char) (rest : List Char) :
    CutsOff (first c rest).1 (first c rest).2 := by
  by_cases hgap : isGap c = true
  · refine cutsOff_of_matches ?_
    rw [first_of_gap hgap]
    exact .blank (List.cons_ne_nil _ _) (forall_mem_spanning hgap)
  by_cases hhash : c = '#'
  · subst hhash
    exact cutsOff_of_matches (.comment forall_mem_takeWhile)
  by_cases hdigit : c.isDigit = true
  · refine cutsOff_of_matches ?_
    rw [first_of_digit hdigit]
    exact .number (List.cons_ne_nil _ _) (forall_mem_spanning hdigit)
  by_cases halpha : c.isAlpha = true
  · refine cutsOff_of_matches ?_
    rw [first_of_alpha halpha]
    exact .word halpha forall_mem_takeWhile
  by_cases hquote : c = '"'
  · subst hquote
    exact cutsOff_quote
  · refine cutsOff_symbol ?_ hquote
    rw [first, if_neg hgap, if_neg hhash, if_neg hdigit, if_neg halpha, if_neg hquote]

end Piece

/-- The pieces of a text are cut by the longest match. -/
theorem cut_pieces (cs : List Char) : Cut cs (pieces cs) := by
  fun_induction pieces cs with
  | case1 => exact .nil
  | case2 c rest ih =>
    have hcut := Cut.cons (Piece.cutsOff_first c rest) ih
    rwa [Piece.first_text_append] at hcut

/-- Every piece of a text that is no fault matches its pattern. -/
theorem matches_of_mem_pieces {cs : List Char} {piece : Piece} (h : piece ∈ pieces cs)
    (hkind : ∀ f, piece.kind ≠ .fault f) : Matches piece.kind piece.text := by
  have hcut := cut_pieces cs
  generalize pieces cs = ps at h hcut
  induction hcut with
  | nil => cases h
  | cons hfirst _ ih =>
    rcases List.mem_cons.1 h with rfl | hlater
    · cases hfirst with
      | longest hmatches => exact hmatches
      | faulty => exact absurd rfl (hkind _)
    · exact ih hlater

/-! ## Spellings of tokens -/

/-- A word is a keyword or an identifier. -/
theorem Token.ofWord_cases (word : String) :
    (∃ k, Token.ofWord word = .keyword k) ∨ Token.ofWord word = .identifier word := by
  unfold Token.ofWord
  split
  · exact .inl ⟨_, rfl⟩
  · exact .inr rfl

namespace Matches

/-- The end of the text has no pattern. -/
theorem ne_endOfInput {t : Token} {w : List Char} (h : Matches (.token t) w) :
    t ≠ .endOfInput := by
  cases h with
  | number | text => simp
  | @word c w =>
    rcases Token.ofWord_cases (String.ofList (c :: w)) with ⟨k, hk⟩ | hname
    · rw [hk]
      simp
    · rw [hname]
      simp
  | sign hsign =>
    rintro rfl
    simp [signs] at hsign

end Matches

end LineBasic
