import LineBasic.Proofs.Grammar.Locality
import LineBasic.Proofs.Token.Scanning

/-!
# What is drawn from a stream

A reader draws from the stream, and each draw is a token or a fault.  A token takes the place of the
current one, which is consumed; a fault leaves the current one where it is.  So after any number of
draws, the tokens that have come are those that are consumed and the current one.

Main definitions:

- `ReaderState.Draws`: draws one after the other, with the tokens that are consumed by them.
- `drawnLexemes`: the tokens among draws.
- `ReaderState.PassesFault`: a draw passes over a fault in a text, and over nothing else.

Main results:

- `ReaderState.Draws.current_cons`: the current token is the last one that was drawn.
- `ReaderState.Draws.take_eq`: what is drawn is what the stream delivers.
- `ReaderState.Draws.length_add_left_le`: there are only so many draws.
- `ReaderState.Draws.passesFault`: what a fault skips.
- `ReaderState.Consumes.exists_draws` and `ReaderState.Meets.exists_draws`: what readers draw.
-/

namespace LineBasic

/-- The tokens among draws. -/
def drawnLexemes (ds : List Delivery) : List Lexeme :=
  ds.filterMap Except.toOption

@[simp] theorem drawnLexemes_ok_cons (l : Lexeme) (ds : List Delivery) :
    drawnLexemes (.ok l :: ds) = l :: drawnLexemes ds :=
  rfl

@[simp] theorem drawnLexemes_error_cons (e : LexicalError) (ds : List Delivery) :
    drawnLexemes (.error e :: ds) = drawnLexemes ds :=
  rfl

/-- The tokens among draws are drawn. -/
theorem mem_of_mem_drawnLexemes {ds : List Delivery} {l : Lexeme} (h : l ∈ drawnLexemes ds) :
    .ok l ∈ ds := by
  rcases List.mem_filterMap.1 h with ⟨d, hd, hl⟩
  cases d with
  | error e => cases hl
  | ok l' =>
    cases hl
    exact hd

namespace ReaderState

/-- Draws one after the other, with the tokens that are consumed by them.  A token that is drawn
takes the place of the current one, which is consumed; a fault leaves the current one where it is.
Nothing is drawn behind the end of the text. -/
inductive Draws : ReaderState → List Delivery → List Lexeme → ReaderState → Prop where
  | nil (s : ReaderState) : Draws s [] [] s
  | token {s u : ReaderState} {l : Lexeme} {later : TokenStream} {ds : List Delivery}
      {ls : List Lexeme} : s.current.token ≠ .endOfInput → s.stream.next = (.ok l, later) →
      Draws ⟨l, later⟩ ds ls u → Draws s (.ok l :: ds) (s.current :: ls) u
  | fault {s u : ReaderState} {e : LexicalError} {later : TokenStream} {ds : List Delivery}
      {ls : List Lexeme} : s.current.token ≠ .endOfInput → s.stream.next = (.error e, later) →
      Draws ⟨s.current, later⟩ ds ls u → Draws s (.error e :: ds) ls u

namespace Draws

variable {s t u : ReaderState} {ds es : List Delivery} {ls ms : List Lexeme}

/-- Draws can be joined. -/
theorem append (h₁ : Draws s ds ls t) (h₂ : Draws t es ms u) :
    Draws s (ds ++ es) (ls ++ ms) u := by
  induction h₁ with
  | nil => exact h₂
  | token hne hnext _ ih => exact .token hne hnext (ih h₂)
  | fault hne hnext _ ih => exact .fault hne hnext (ih h₂)

/-- Draws can be split anywhere, and so can what they consume. -/
theorem exists_of_append (h : Draws s (ds ++ es) ls u) :
    ∃ t ls₁ ls₂, ls = ls₁ ++ ls₂ ∧ Draws s ds ls₁ t ∧ Draws t es ls₂ u := by
  induction ds generalizing s ls with
  | nil => exact ⟨s, [], ls, rfl, .nil s, h⟩
  | cons d ds ih =>
    cases h with
    | token hne hnext hrest =>
      rcases ih hrest with ⟨t, ls₁, ls₂, rfl, h₁, h₂⟩
      exact ⟨t, s.current :: ls₁, ls₂, rfl, .token hne hnext h₁, h₂⟩
    | fault hne hnext hrest =>
      rcases ih hrest with ⟨t, ls₁, ls₂, rfl, h₁, h₂⟩
      exact ⟨t, ls₁, ls₂, rfl, .fault hne hnext h₁, h₂⟩

/-- The first token and those that are drawn are the tokens that are consumed and the current one,
in this order. -/
theorem current_cons (h : Draws s ds ls u) :
    s.current :: drawnLexemes ds = ls ++ [u.current] := by
  induction h with
  | nil => rfl
  | token _ _ _ ih => rw [drawnLexemes_ok_cons, ih, List.cons_append]
  | fault _ _ _ ih => rw [drawnLexemes_error_cons, ih]

/-- What is drawn is what the stream delivers. -/
theorem take_eq (h : Draws s ds ls u) : s.stream.take ds.length = ds := by
  induction h with
  | nil => rfl
  | token _ hnext _ ih | fault _ hnext _ ih => rw [List.length_cons, TokenStream.take, hnext, ih]

/-- The number of draws is bounded by that of the deliveries that are left. -/
theorem length_add_left_le (h : Draws s ds ls u) : ds.length + u.left ≤ s.left := by
  induction h with
  | nil => exact Nat.le_of_eq (Nat.zero_add _)
  | @token s u l later ds ls hne hnext _ ih =>
    have hadv : Reader.advance.run s = .ok () ⟨l, later⟩ := by
      simp only [Reader.advance, EStateM.run, hnext]
    have hlt := left_lt_of_advance hne hadv
    rw [List.length_cons]
    omega
  | @fault s u e later ds ls hne hnext _ ih =>
    have hleft : s.left = s.remaining + 1 := if_neg hne
    have hrest : (ReaderState.mk s.current later).left = later.upcoming.length + 1 := if_neg hne
    have hremaining : s.remaining = later.upcoming.length + 1 := by
      unfold TokenStream.next at hnext
      split at hnext
      · cases hnext
      · rename_i d rest hupcoming
        cases hnext
        rw [remaining, hupcoming, List.length_cons]
    rw [List.length_cons]
    omega

/-- The end of the text is never consumed. -/
theorem ne_endOfInput (h : Draws s ds ls u) : ∀ l ∈ ls, l.token ≠ .endOfInput := by
  induction h with
  | nil => simp
  | token hne _ _ ih => exact List.forall_mem_cons.2 ⟨hne, ih⟩
  | fault _ _ _ ih => exact ih

end Draws

/-! ## Draws by readers -/

/-- The end of the text is never moved over. -/
theorem Consumes.ne_endOfInput {s u : ReaderState} {ts : List Token} (h : Consumes s ts u) :
    ∀ t ∈ ts, t ≠ .endOfInput := by
  induction h with
  | nil => simp
  | cons hne _ _ ih => exact List.forall_mem_cons.2 ⟨hne, ih⟩

/-- What is moved over is drawn without a fault. -/
theorem Consumes.exists_draws {s u : ReaderState} {ts : List Token} (h : Consumes s ts u) :
    ∃ (lexemes ls : List Lexeme), Draws s (lexemes.map .ok) ls u ∧ ls.map Lexeme.token = ts := by
  induction h with
  | nil s => exact ⟨[], [], .nil s, rfl⟩
  | @cons s t u ts hne hadv _ ih =>
    rcases ih with ⟨lexemes, ls, hdraws, rfl⟩
    simp only [Reader.advance, EStateM.run] at hadv
    split at hadv
    · rename_i l later hnext
      cases hadv
      exact ⟨l :: lexemes, s.current :: ls, .token hne hnext hdraws, rfl⟩
    · cases hadv

/-- Up to an error no fault is drawn but the one that is the error, and the token that is refused is
the current one. -/
theorem Meets.exists_draws {s u : ReaderState} {ts : List Token} {e : ParseError}
    (h : Meets s ts e u) :
    ∃ lexemes ls : List Lexeme,
      (∃ fault, e = .grammatical ⟨u.current.position, fault⟩ ∧ fault.Fits u.current.token ∧
        Draws s (lexemes.map .ok) ls u) ∨
      ∃ err, e = .lexical err ∧ Draws s (lexemes.map .ok ++ [.error err]) ls u := by
  cases h with
  | refused hts hfits =>
    rcases hts.exists_draws with ⟨lexemes, ls, hdraws, -⟩
    exact ⟨lexemes, ls, .inl ⟨_, rfl, hfits, hdraws⟩⟩
  | faulty hts hne hadv =>
    rcases hts.exists_draws with ⟨lexemes, ls, hdraws, -⟩
    simp only [Reader.advance, EStateM.run] at hadv
    split at hadv
    · cases hadv
    · rename_i err' later hnext
      cases hadv
      have hfault := hdraws.append (.fault hne hnext (.nil _))
      rw [List.append_nil] at hfault
      exact ⟨lexemes, ls, .inr ⟨_, rfl, hfault⟩⟩

/-! ## Draws from a text -/

/-- The part `rest` of a text is still to be drawn, and the part `front` is not. -/
def IsAt (text : String) (front rest : List Char) (s : ReaderState) : Prop :=
  text.toList = front ++ rest ∧ s.stream = TokenStream.within text front rest

/-- A draw passes over a fault in a text: over the blanks and comments in front of it and over the
characters that are no token, but over nothing behind them.  The current token stays the same. -/
def PassesFault (text : String) (s : ReaderState) (e : LexicalError) (t : ReaderState) : Prop :=
  t.current = s.current ∧ ∃ front passed bad rest,
    s.IsAt text front (passed ++ bad ++ rest) ∧ Passes passed (bad ++ rest) ∧
    Skips e.fault bad rest ∧ e.position = Position.start.after (front ++ passed) ∧
    t.IsAt text (front ++ passed ++ bad) rest

/-- Draws from a text leave a part of it. -/
theorem Draws.exists_isAt {text : String} {front rest : List Char} {s u : ReaderState}
    {ds : List Delivery} {ls : List Lexeme} (h : Draws s ds ls u) (hs : s.IsAt text front rest) :
    ∃ front' rest', u.IsAt text front' rest' := by
  induction h generalizing front rest with
  | nil => exact ⟨front, rest, hs⟩
  | token _ hnext _ ih | fault _ hnext _ ih =>
    rcases hs with ⟨htext, hstream⟩
    rcases (TokenStream.exists_scan htext).2 with ⟨front', htext', hlater⟩
    rw [← hstream, hnext] at hlater
    exact ih ⟨htext', hlater⟩

/-- A fault that is drawn from a text is passed over. -/
theorem passesFault_of_next {text : String} {front rest : List Char} {s : ReaderState}
    (hs : s.IsAt text front rest) {e : LexicalError} {later : TokenStream}
    (hnext : s.stream.next = (.error e, later)) : s.PassesFault text e ⟨s.current, later⟩ := by
  rcases hs with ⟨htext, hstream⟩
  rcases TokenStream.exists_scan htext with
    ⟨⟨passed, point, rfl, hpasses, hscan⟩, front', htext', hlater⟩
  rw [← hstream, hnext] at hscan hlater
  generalize behindFound (passed ++ point) = behind at hscan htext' hlater
  -- at the end of the text, and where a token begins, it would be a token that is delivered
  have hne : point ≠ [] := by
    intro hend
    cases (hscan.ends hend).1
  have hnone : ∀ t w, Token.SpelledAs t w → ¬ w <+: point := by
    intro t w hspelled hbegins
    obtain ⟨t', w', p, hd, -⟩ := hscan.longest t w hspelled hbegins
    cases hd
  obtain ⟨f, bad, ⟨p, hfault⟩, hskips, rfl⟩ := hscan.faulty hne hnone
  cases hfault
  obtain ⟨before, hbefore, hposition⟩ := hscan.position_eq
  have hfront : before = front ++ passed := by
    rw [htext, ← List.append_assoc] at hbefore
    exact (List.append_cancel_right hbefore).symm
  have hfront' : front' = front ++ passed ++ bad := by
    rw [htext, ← List.append_assoc, ← List.append_assoc] at htext'
    exact (List.append_cancel_right htext').symm
  subst hfront hfront'
  refine ⟨rfl, front, passed, bad, _, ⟨?_, ?_⟩, hpasses, hskips, hposition, htext', hlater⟩
  · rw [htext, List.append_assoc]
  · rw [hstream, List.append_assoc]

/-- Each fault among draws from a text is passed over. -/
theorem Draws.passesFault {text : String} {front rest : List Char} {s u : ReaderState}
    {ds es : List Delivery} {ls : List Lexeme} {e : LexicalError}
    (h : Draws s (ds ++ .error e :: es) ls u) (hs : s.IsAt text front rest) :
    ∃ v w ls₁ ls₂, ls = ls₁ ++ ls₂ ∧ Draws s ds ls₁ v ∧ v.PassesFault text e w ∧
      Draws w es ls₂ u := by
  rcases h.exists_of_append with ⟨v, ls₁, ls₂, rfl, hbefore, hfault⟩
  rcases hbefore.exists_isAt hs with ⟨front', rest', hv⟩
  cases hfault with
  | fault _ hnext hlater =>
    exact ⟨v, _, ls₁, ls₂, rfl, hbefore, passesFault_of_next hv hnext, hlater⟩

/-- At the start of a text, the first token is drawn and the rest is not. -/
theorem isAt_of_ofText? {text : String} {s : ReaderState} (h : ofText? text = .ok s) :
    (TokenStream.ofText text).next = (.ok s.current, s.stream) ∧
      ∃ front rest, s.IsAt text front rest := by
  unfold ofText? at h
  split at h
  · rename_i l later hnext
    cases h
    have htext : text.toList = [] ++ text.toList := rfl
    rcases (TokenStream.exists_scan htext).2 with ⟨front, hrest, hlater⟩
    have hstart : TokenStream.within text [] text.toList = TokenStream.ofText text := rfl
    rw [hstart, hnext] at hlater
    exact ⟨hnext, front, _, hrest, hlater⟩
  · cases h

/-- The tokens that are consumed in a text are spelled there. -/
theorem Draws.hasSpelling {text : String} {s u : ReaderState} {ds : List Delivery}
    {ls : List Lexeme} (hs : ofText? text = .ok s) (h : Draws s ds ls u) :
    ∀ l ∈ ls, l.token.HasSpelling := by
  intro l hl
  have hdrawn : l ∈ s.current :: drawnLexemes ds := by
    rw [h.current_cons]
    exact List.mem_append_left _ hl
  have hdelivered : Except.ok l ∈ (TokenStream.ofText text).take (ds.length + 1) := by
    rw [TokenStream.take, (isAt_of_ofText? hs).1, h.take_eq]
    rcases List.mem_cons.1 hdrawn with rfl | hlater
    · exact List.mem_cons_self
    · exact List.mem_cons_of_mem _ (mem_of_mem_drawnLexemes hlater)
  rw [TokenStream.take_eq] at hdelivered
  rcases List.mem_append.1 (List.mem_of_mem_take hdelivered) with hfound | hend
  · rcases exists_matches_of_mem_upcoming hfound with ⟨w, hw⟩
    exact ⟨w, Token.matches_iff_spelledAs.1 hw⟩
  · have hfinal := List.eq_of_mem_replicate hend
    cases hfinal
    exact absurd rfl (h.ne_endOfInput _ hl)

end ReaderState

end LineBasic
