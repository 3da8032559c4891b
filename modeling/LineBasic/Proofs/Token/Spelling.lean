import LineBasic.Proofs.Token.Pattern

/-!
# Spellings of tokens

How each token may be written.  A run of letters and digits is the keyword that it spells in
capitals, and an identifier if it spells none; an identifier keeps its letter case.  A token is
cut off as it is written if the next character does not make it longer, so no two tokens have a
spelling in common.

Main definitions:

- `Token.SpelledAs`: the spellings of a token.
- `Token.HasSpelling`: the tokens that have one.
- `Token.prolongedBy`: the characters that make a token longer.

Main results:

- `Token.matches_iff_spelledAs`: the spellings are those of the patterns.
- `Token.SpelledAs.first_eq`: a token is cut off where nothing behind it makes it longer.
- `Token.SpelledAs.unique`: a spelling is that of one token only.
-/

namespace LineBasic

/-! ## Keywords and quoted characters -/

/-- Keywords are spelled in capitals. -/
theorem Keyword.upper_spelling (k : Keyword) : upper k.spelling = k.spelling := by
  cases k <;> decide

/-- A word is a keyword if it spells it in capitals. -/
theorem Keyword.ofWord?_eq_some_iff {word : String} {k : Keyword} :
    Keyword.ofWord? word = some k ↔ upper word = k.spelling := by
  constructor
  · intro h
    have hspelling := List.find?_some h
    exact (beq_iff_eq.1 hspelling).symm
  · intro h
    rw [← ofWord?_spelling k, ofWord?, ofWord?, h, upper_spelling]

/-- A word is no keyword if it spells none in capitals. -/
theorem Keyword.ofWord?_eq_none_iff {word : String} :
    Keyword.ofWord? word = none ↔ ∀ k : Keyword, upper word ≠ k.spelling := by
  rw [Option.eq_none_iff_forall_ne_some]
  exact forall_congr' fun k => not_congr ofWord?_eq_some_iff

/-- A character can be quoted if it is no quote and ends no line. -/
theorem isQuotable_iff {c : Char} : isQuotable c = true ↔ c ≠ '"' ∧ c ≠ '\r' ∧ c ≠ '\n' := by
  simp [isQuotable, and_assoc]

/-- Blanks are spaces and tabs. -/
theorem isGap_iff {c : Char} : isGap c = true ↔ c = ' ' ∨ c = '\t' := by
  simp [isGap]

namespace Token

/-! ## Spellings -/

/-- The spellings of a token. -/
inductive SpelledAs : Token → List Char → Prop where
  | number {w} : w ≠ [] → (∀ c ∈ w, c.isDigit = true) → SpelledAs (.number (String.ofList w)) w
  | text {w} : (∀ c ∈ w, c ≠ '"' ∧ c ≠ '\r' ∧ c ≠ '\n') →
      SpelledAs (.text (String.ofList w)) ('"' :: w ++ ['"'])
  | keyword {c w k} : c.isAlpha = true → (∀ d ∈ w, d.isAlphanum = true) →
      upper (String.ofList (c :: w)) = k.spelling → SpelledAs (.keyword k) (c :: w)
  | identifier {c w} : c.isAlpha = true → (∀ d ∈ w, d.isAlphanum = true) →
      (∀ k : Keyword, upper (String.ofList (c :: w)) ≠ k.spelling) →
      SpelledAs (.identifier (String.ofList (c :: w))) (c :: w)
  | sign {t w} : (t, w) ∈ signs → SpelledAs t w

/-- A token that can be written at all. -/
def HasSpelling (t : Token) : Prop :=
  ∃ w, t.SpelledAs w

/-- A word that spells a keyword is this keyword. -/
theorem ofWord_eq_keyword {word : String} {k : Keyword} (h : upper word = k.spelling) :
    ofWord word = .keyword k := by
  rw [ofWord, Keyword.ofWord?_eq_some_iff.2 h]

/-- A word that spells no keyword is an identifier. -/
theorem ofWord_eq_identifier {word : String} (h : ∀ k : Keyword, upper word ≠ k.spelling) :
    ofWord word = .identifier word := by
  rw [ofWord, Keyword.ofWord?_eq_none_iff.2 h]

/-- The spellings of tokens are those of the patterns. -/
theorem matches_iff_spelledAs {t : Token} {w : List Char} :
    Matches (.token t) w ↔ t.SpelledAs w := by
  constructor
  · intro h
    cases h with
    | number hne hdigits => exact .number hne hdigits
    | text hquotable => exact .text fun c hc => isQuotable_iff.1 (hquotable c hc)
    | @word c w halpha halnum =>
      cases hword : Keyword.ofWord? (String.ofList (c :: w)) with
      | some k =>
        have hspelling := Keyword.ofWord?_eq_some_iff.1 hword
        rw [ofWord_eq_keyword hspelling]
        exact .keyword halpha halnum hspelling
      | none =>
        have hspelling := Keyword.ofWord?_eq_none_iff.1 hword
        rw [ofWord_eq_identifier hspelling]
        exact .identifier halpha halnum hspelling
    | sign hsign => exact .sign hsign
  · intro h
    cases h with
    | number hne hdigits => exact .number hne hdigits
    | text hquotable => exact .text fun c hc => isQuotable_iff.2 (hquotable c hc)
    | keyword halpha halnum hspelling =>
      rw [← ofWord_eq_keyword hspelling]
      exact .word halpha halnum
    | identifier halpha halnum hspelling =>
      rw [← ofWord_eq_identifier hspelling]
      exact .word halpha halnum
    | sign hsign => exact .sign hsign

/-! ## Spellings in front of other characters -/

end Token

/-- A run of characters of a class is cut off in front of a character that is not of the class. -/
theorem Piece.spanning_append {p : Char → Bool} {kind : String → PieceKind} {c : Char}
    {w rest : List Char} (hw : ∀ d ∈ w, p d = true) (hrest : ∀ d ∈ rest.head?, p d = false) :
    spanning p kind c (w ++ rest) = (⟨kind (String.ofList (c :: w)), c :: w⟩, rest) := by
  have hnone : rest.takeWhile p = [] ∧ rest.dropWhile p = rest := by
    cases rest with
    | nil => exact ⟨rfl, rfl⟩
    | cons d rest =>
      have hd := hrest d rfl
      simp [hd]
  rw [spanning, List.takeWhile_append_of_pos hw, List.dropWhile_append_of_pos hw, hnone.1,
    hnone.2, List.append_nil]

namespace Token

/-- The characters that make a token longer when they stand behind it. -/
def prolongedBy : Token → Char → Bool
  | number _, c => c.isDigit
  | identifier _, c => c.isAlphanum
  | keyword _, c => c.isAlphanum
  | becomes, c => c == '='
  | greater, c => c == '='
  | less, c => c == '=' || c == '>'
  | _, _ => false

/-- A blank makes no token longer. -/
theorem prolongedBy_of_isGap (t : Token) {c : Char} (h : isGap c = true) :
    t.prolongedBy c = false := by
  rcases isGap_iff.1 h with rfl | rfl <;> cases t <;> rfl

/-- The second character of a sign makes the first one longer. -/
theorem prolongedBy_of_pair {c d : Char} {t u : Token} (hsingle : singleToken? c = some t)
    (hpair : pairToken? c d = some u) : t.prolongedBy d = true := by
  unfold pairToken? at hpair
  split at hpair <;> cases hpair <;> cases hsingle <;> rfl

/-- A token that is written in front of a character that does not make it longer, or at the end of
a text, is cut off as it is written. -/
theorem SpelledAs.first_eq {t : Token} {c : Char} {w rest : List Char}
    (h : t.SpelledAs (c :: w)) (hrest : ∀ d ∈ rest.head?, t.prolongedBy d = false) :
    Piece.first c (w ++ rest) = (⟨.token t, c :: w⟩, rest) := by
  generalize hall : c :: w = all at h
  cases h with
  | number hne hdigits =>
    subst hall
    rcases List.forall_mem_cons.1 hdigits with ⟨hc, hw⟩
    rw [Piece.first_of_digit hc]
    exact Piece.spanning_append hw hrest
  | @text content hquotable =>
    rcases List.cons.inj hall with ⟨rfl, hw⟩
    have hbehind : w ++ rest = content ++ '"' :: rest := by
      rw [show w = content ++ ['"'] from hw, List.append_assoc, List.singleton_append]
    rw [Piece.first_of_quote, hbehind]
    exact Piece.quoted_of_closed fun d hd => isQuotable_iff.2 (hquotable d hd)
  | keyword halpha halnum hspelling =>
    rcases List.cons.inj hall with ⟨rfl, rfl⟩
    rw [Piece.first_of_alpha halpha, ← ofWord_eq_keyword hspelling]
    exact Piece.spanning_append halnum hrest
  | identifier halpha halnum hspelling =>
    rcases List.cons.inj hall with ⟨rfl, rfl⟩
    rw [Piece.first_of_alpha halpha, ← ofWord_eq_identifier hspelling]
    exact Piece.spanning_append halnum hrest
  | sign hsign =>
    subst hall
    rw [mem_signs_iff] at hsign
    unfold signToken? at hsign
    split at hsign
    · rename_i e heq
      rcases List.cons.inj heq with ⟨rfl, rfl⟩
      rw [Piece.first_of_single hsign, List.nil_append]
      rcases Piece.symbol_cases c rest with ⟨d, more, u, rfl, hpair, -⟩ | ⟨-, hsymbol⟩
      · have hlonger := prolongedBy_of_pair hsign hpair
        rw [hrest d rfl] at hlonger
        cases hlonger
      · rw [hsymbol, Piece.singleKind, hsign]
    · rename_i e f heq
      rcases List.cons.inj heq with ⟨rfl, rfl⟩
      rw [Piece.first_of_pair hsign]
      rcases Piece.symbol_cases c ([f] ++ rest) with
        ⟨d, more, u, heq, hpair, hsymbol⟩ | ⟨hnone, -⟩
      · rcases List.cons.inj heq with ⟨rfl, rfl⟩
        rw [hsign] at hpair
        cases hpair
        exact hsymbol
      · rw [hnone f rest rfl] at hsign
        cases hsign
    · cases hsign

/-- A spelling has characters. -/
theorem SpelledAs.ne_nil {t : Token} {w : List Char} (h : t.SpelledAs w) : w ≠ [] := by
  cases h with
  | number hne => exact hne
  | text | keyword | identifier => simp
  | sign hsign =>
    rintro rfl
    simp [signs] at hsign

/-- A spelling is that of one token only. -/
theorem SpelledAs.unique {t t' : Token} {w : List Char} (h : t.SpelledAs w)
    (h' : t'.SpelledAs w) : t = t' := by
  rcases List.exists_cons_of_ne_nil h.ne_nil with ⟨c, v, rfl⟩
  have hfirst := h.first_eq (show ∀ d ∈ [].head?, t.prolongedBy d = false by simp)
  rw [h'.first_eq (by simp)] at hfirst
  cases hfirst
  rfl

end Token

end LineBasic
