import Mathlib
import LineBasic.Proofs.Grammar.Acceptance
import LineBasic.Proofs.Grammar.Completion
import LineBasic.Proofs.Grammar.Occurrence
import LineBasic.Proofs.Token.Scanning

/-!
# Errors are reported where no program can go on

A text that is no program is refused at the first place where it cannot be the beginning of one:
at the first fault or token with which what has been delivered begins no program.  A fault later in
the text never hides a wrong token before it, nor the other way round.

Main definitions:

- `Grammar.Viable`: the lists of tokens that programs begin with.
- `TokenStream.SpoiledAt`: no program begins with what has been delivered.

Main results:

- `Reader.fault_of_viable`: only a numeral that is too large is refused where a like token may be.
- `Program.refused_at_first_fault`: the error of a text that is no program.
-/

namespace LineBasic

open Grammar ReaderState

namespace Grammar

variable {ts : List Token}

/-! ## Beginnings of programs -/

/-- Some program begins with these tokens. -/
def Viable (ts : List Token) : Prop :=
  ∃ us program, ProgramRule (ts ++ us) program

/-- A program can go on with a number. -/
def TakesNumber (ts : List Token) : Prop :=
  ∃ digits, Viable (ts ++ [.number digits])

/-- Lines that go on with other tokens are the beginning of a program. -/
theorem Lines.viable {us : List Token} {lines : List Line} (h : Lines (ts ++ us) lines) :
    Viable ts :=
  ⟨us ++ [.endOfInput], ⟨lines⟩, by simpa using ProgramRule.mk h⟩

/-- A beginning of a beginning is one, too. -/
theorem Viable.of_append {us : List Token} (h : Viable (ts ++ us)) : Viable ts := by
  rcases h with ⟨vs, program, hrule⟩
  exact ⟨us ++ vs, program, by rwa [← List.append_assoc]⟩

/-- A beginning of a program is one of its lines, or all of them with the end of the text. -/
theorem Viable.exists_lines {t : Token} (h : Viable (ts ++ [t])) :
    ∃ us lines, Lines (ts ++ us) lines ∧ us.headD .endOfInput = t := by
  rcases h with ⟨us, program, hrule⟩
  generalize htokens : ts ++ [t] ++ us = tokens at hrule
  cases hrule with
  | @mk inner lines hlines =>
    rw [List.append_assoc, List.singleton_append] at htokens
    rcases List.append_eq_append_iff.1 htokens with ⟨vs, rfl, hend⟩ | ⟨vs, rfl, hend⟩
    · refine ⟨vs, lines, hlines, ?_⟩
      cases vs with
      | nil => exact (List.cons.inj hend).1.symm
      | cons v vs => exact (List.cons.inj hend).1.symm
    · -- no more than the end of the text is left behind the lines
      have hvs : vs = [] := by
        cases vs with
        | nil => rfl
        | cons v vs => cases vs <;> simp at hend
      subst hvs
      rw [List.append_nil]
      exact ⟨[], lines, by simpa using hlines, (List.cons.inj hend).1⟩

/-- A token in the beginning of a program is the end of the text, or can occur. -/
theorem Viable.canOccur {t : Token} (h : Viable (ts ++ [t])) : t = .endOfInput ∨ t.CanOccur := by
  obtain ⟨us, lines, hlines, rfl⟩ := h.exists_lines
  cases us with
  | nil => exact .inl rfl
  | cons t us => exact .inr (hlines.canOccur t (by simp))

end Grammar

/-! ## Readers at the start of tokens -/

/-- The state at the start of a list of tokens. -/
def ReaderState.ofTokens (ts : List Token) : ReaderState :=
  ⟨⟨ts.headD .endOfInput, .start⟩, ⟨ts.tail.map fun t => .ok ⟨t, .start⟩, .start⟩⟩

/-- All tokens of a list can be moved over. -/
theorem ReaderState.consumes_ofTokens {ts : List Token} (us : List Token)
    (h : ∀ t ∈ ts, t ≠ .endOfInput) : Consumes (ofTokens (ts ++ us)) ts (ofTokens us) := by
  induction ts with
  | nil => exact .nil _
  | cons t ts ih =>
    rcases List.forall_mem_cons.1 h with ⟨ht, hts⟩
    have hadv : Reader.advance.run (ofTokens (t :: (ts ++ us))) = .ok () (ofTokens (ts ++ us)) := by
      cases ts ++ us <;> rfl
    exact consumes_cons_iff.2 ⟨rfl, ht, _, hadv, ih hts⟩

/-- Where a like token can go on, only a numeral that is too large is refused. -/
theorem Reader.fault_of_viable {s u : ReaderState} {bound : Nat} (hbound : s.left ≤ bound)
    {p : Position} {fault : SyntaxFault}
    (hrun : (linesWithin bound).run s = .error (.grammatical ⟨p, fault⟩) u) {ts : List Token}
    (hts : Consumes s ts u) {t : Token} (halike : Token.Alike u.current.token t)
    (hviable : Viable (ts ++ [t])) : ∃ digits, fault = .numberOutOfRange digits := by
  obtain ⟨us, lines, hlines, rfl⟩ := hviable.exists_lines
  have hne : ∀ t ∈ ts ++ us, t ≠ .endOfInput := by
    rintro t ht rfl
    exact hlines.canOccur _ ht
  -- a program with these tokens is read without an error, however large the bound is
  have hall := consumes_ofTokens [] hne
  rw [List.append_nil] at hall
  have hread := accepts_linesWithin (bound + (ts ++ us).length) hlines (by omega) hall rfl
  have hts' := consumes_ofTokens us fun t ht => hne t (List.mem_append_left us ht)
  have hlocal := local_linesWithin (ts ++ us).length bound (Nat.lt_succ_of_le hbound)
  rcases (hlocal.error hrun).2 rfl hts hts' halike with hrange | ⟨e', w, herror⟩
  · exact hrange
  · rw [hread] at herror
    cases herror

/-! ## Deliveries up to an error -/

namespace TokenStream

/-- One delivery more is taken. -/
theorem take_succ (s : TokenStream) (n : Nat) : s.take (n + 1) = s.take n ++ [s.nth n] := by
  induction n generalizing s with
  | zero => rfl
  | succ n ih => rw [take, ih, take, List.cons_append, nth]

/-- What has been moved over was delivered, and so was the token behind it. -/
theorem delivered_of_consumes {s : TokenStream} {l : Lexeme} {later : TokenStream}
    (hnext : s.next = (.ok l, later)) {ts : List Token} {u : ReaderState}
    (h : Consumes ⟨l, later⟩ ts u) :
    ∃ lexemes : List Lexeme, s.take ts.length = lexemes.map .ok ∧
      lexemes.map Lexeme.token = ts ∧ s.nth ts.length = .ok u.current ∧
      s.nth (ts.length + 1) = u.stream.next.1 := by
  induction ts generalizing s l later with
  | nil =>
    obtain rfl := consumes_nil_iff.1 h
    refine ⟨[], rfl, rfl, ?_, ?_⟩
    · rw [List.length_nil, nth, hnext]
    · rw [List.length_nil, nth, hnext, nth]
  | cons t ts ih =>
    rcases consumes_cons_iff.1 h with ⟨rfl, -, v, hadv, hts⟩
    obtain ⟨m, later', hnext', rfl⟩ := Reader.run_advance_eq_ok_iff.1 hadv
    rcases ih hnext' hts with ⟨lexemes, htake, htokens, hlast, hbehind⟩
    refine ⟨l :: lexemes, ?_, by rw [List.map_cons, htokens], ?_, ?_⟩
    · rw [List.length_cons, take, hnext, htake, List.map_cons]
    · rw [List.length_cons, nth, hnext, hlast]
    · rw [List.length_cons, nth, hnext, hbehind]

/-- The delivery with the number `k` is a fault, or a token with which no program goes on. -/
def SpoiledAt (s : TokenStream) (k : Nat) : Prop :=
  (∃ e, s.nth k = .error e) ∨
    ∀ lexemes : List Lexeme, s.take (k + 1) = lexemes.map .ok → ¬ Viable (lexemes.map Lexeme.token)

/-- In the beginning of a program nothing is spoiled. -/
theorem not_spoiledAt_of_viable {s : TokenStream} {n : Nat} {lexemes : List Lexeme}
    (htake : s.take n = lexemes.map .ok) (hviable : Viable (lexemes.map Lexeme.token)) {k : Nat}
    (hk : k < n) : ¬ s.SpoiledAt k := by
  induction n generalizing lexemes with
  | zero => exact absurd hk (Nat.not_lt_zero k)
  | succ n ih =>
    rw [take_succ] at htake
    rcases List.eq_nil_or_concat lexemes with rfl | ⟨earlier, l, rfl⟩
    · simp at htake
    · rw [List.concat_eq_append, List.map_append, List.map_singleton] at htake hviable
      rcases List.append_inj' htake rfl with ⟨hearlier, hlast⟩
      rcases Nat.lt_succ_iff_lt_or_eq.1 hk with hlt | rfl
      · exact ih hearlier hviable.of_append hlt
      · rintro (⟨e, he⟩ | hnone)
        · rw [(List.cons.inj hlast).1] at he
          cases he
        · refine hnone (earlier ++ [l]) ?_ (by rwa [List.map_append, List.map_singleton])
          rw [take_succ, hearlier, hlast, List.map_append, List.map_singleton]

end TokenStream

/-! ## The error of a text -/

/-- Numerals are too large if their values exceed the largest number. -/
theorem literalNumber?_eq_none_iff {digits : String} :
    literalNumber? digits = none ↔ 32767 < decimalValue digits.toList := by
  simp only [literalNumber?, number?]
  split
  · simp only [reduceCtorEq, false_iff]
    omega
  · simp only [true_iff]
    omega

/-- If a text is no program, its first token is not delivered or its lines are not read. -/
theorem Program.run_of_parse_error {text : String} {e : ParseError}
    (h : Program.parse text = .error e) :
    (∃ err later, (TokenStream.ofText text).next = (.error err, later) ∧ e = .lexical err) ∨
      ∃ s u, (TokenStream.ofText text).next = (.ok s.current, s.stream) ∧
        (Reader.linesWithin (s.remaining + 1)).run s = .error e u := by
  unfold Program.parse ReaderState.ofText? at h
  rcases hnext : (TokenStream.ofText text).next with ⟨d, later⟩
  rw [hnext] at h
  cases d with
  | error err =>
    cases h
    exact .inl ⟨err, later, rfl, rfl⟩
  | ok l =>
    refine .inr ⟨⟨l, later⟩, ?_⟩
    cases hrun : Reader.program.run ⟨l, later⟩ with
    | ok program u =>
      simp [bind, Except.bind, hrun] at h
    | error e' u =>
      have he : e' = e := by simpa [bind, Except.bind, hrun] using h
      subst he
      rcases run_bind_eq_error_iff.1 hrun with hlines | ⟨lines, v, -, hpure⟩
      · exact ⟨u, rfl, hlines⟩
      · cases hpure

/-- What has been delivered when a text is refused, and what comes next. -/
theorem Program.delivered_of_parse_error {text : String} {e : ParseError}
    (h : Program.parse text = .error e) :
    ∃ before : List Lexeme,
      (TokenStream.ofText text).take before.length = before.map .ok ∧
      Viable (before.map Lexeme.token) ∧
      ((∃ err, e = .lexical err ∧ (TokenStream.ofText text).nth before.length = .error err) ∨
        ∃ l fault, e = .grammatical ⟨l.position, fault⟩ ∧
          (TokenStream.ofText text).nth before.length = .ok l ∧ fault.Fits l.token ∧
          (e.IsOutOfRange → TakesNumber (before.map Lexeme.token)) ∧
          ∀ {t}, Token.Alike l.token t → Viable (before.map Lexeme.token ++ [t]) →
            ∃ digits, fault = .numberOutOfRange digits) := by
  rcases Program.run_of_parse_error h with ⟨err, later, hnext, rfl⟩ | ⟨s, u, hnext, hrun⟩
  · -- the text begins with a fault
    have hempty : Lines ([] ++ []) [] := .last .blank
    refine ⟨[], rfl, hempty.viable, .inl ⟨err, rfl, ?_⟩⟩
    rw [List.length_nil, TokenStream.nth, hnext]
  · rcases Reader.completes_linesWithin _ s hrun with ⟨ts, us, hmeets, ⟨lines, hlines⟩, hopens⟩
    cases hmeets with
    | refused hts hfits =>
      obtain ⟨before, htake, rfl, hlast, -⟩ := TokenStream.delivered_of_consumes hnext hts
      rw [List.length_map] at htake hlast
      refine ⟨before, htake, hlines.viable, .inr ⟨u.current, _, rfl, hlast, hfits, ?_, ?_⟩⟩
      · intro hrange
        obtain ⟨digits, vs, rfl⟩ := hopens hrange
        have hmore : Lines (before.map Lexeme.token ++ [.number digits] ++ vs) lines := by
          simpa using hlines
        exact ⟨digits, hmore.viable⟩
      · exact fun halike hviable => Reader.fault_of_viable s.left_le hrun hts halike hviable
    | faulty hts hne hadv =>
      rename_i v ts err
      obtain ⟨_, ⟨rfl⟩, hfault⟩ := Reader.lexical_of_advance hadv
      obtain ⟨before, htake, rfl, hlast, hbehind⟩ := TokenStream.delivered_of_consumes hnext hts
      rw [List.length_map] at htake hlast hbehind
      refine ⟨before ++ [v.current], ?_, ?_, .inl ⟨err, rfl, ?_⟩⟩
      · rw [List.length_append, List.length_singleton, TokenStream.take_succ, htake, hlast,
          List.map_append, List.map_singleton]
      · rw [List.map_append, List.map_singleton]
        exact hlines.viable
      · rw [List.length_append, List.length_singleton, hbehind, hfault]

/-- A text that is no program is refused at the first place `k` at which no program goes on.  If
there is a fault of the text there, it is the error.  If there is a token, the error stands at the
token, and it says that a number is too large exactly if the token is a numeral above 32767 and a
number may stand there. -/
theorem Program.refused_at_first_fault {text : String} {e : ParseError}
    (h : Program.parse text = .error e) :
    ∃ k, (TokenStream.ofText text).SpoiledAt k ∧
      (∀ j < k, ¬ (TokenStream.ofText text).SpoiledAt j) ∧
      (∀ err, (TokenStream.ofText text).nth k = .error err → e = .lexical err) ∧
      ∀ l, (TokenStream.ofText text).nth k = .ok l →
        ∃ fault, e = .grammatical ⟨l.position, fault⟩ ∧ fault.Fits l.token ∧
          ∀ digits, fault = .numberOutOfRange digits ↔
            l.token = .number digits ∧ 32767 < decimalValue digits.toList ∧
              ∃ before : List Lexeme, (TokenStream.ofText text).take k = before.map .ok ∧
                TakesNumber (before.map Lexeme.token) := by
  obtain ⟨before, htake, hviable, hnext⟩ := Program.delivered_of_parse_error h
  refine ⟨before.length, ?_, fun j => TokenStream.not_spoiledAt_of_viable htake hviable, ?_, ?_⟩
  · rcases hnext with ⟨err, -, herr⟩ | ⟨l, fault, -, hl, hfits, -, honly⟩
    · exact .inl ⟨err, herr⟩
    · refine .inr fun lexemes hlexemes hmore => ?_
      rw [TokenStream.take_succ, htake, hl, ← List.map_singleton, ← List.map_append] at hlexemes
      obtain rfl : before ++ [l] = lexemes := by
        exact (List.map_inj_right fun _ _ => Except.ok.inj).1 hlexemes
      rw [List.map_append, List.map_singleton] at hmore
      -- only a numeral that is too large is refused here, and none is in a program
      obtain ⟨digits, rfl⟩ := honly (.refl _) hmore
      rcases hfits with ⟨htok, hnone⟩
      rcases hmore.canOccur with hend | hoccurs
      · rw [htok] at hend
        cases hend
      · rw [htok] at hoccurs
        exact absurd (literalNumber?_eq_none_iff.1 hnone) (Nat.not_lt.2 hoccurs)
  · intro err herr
    rcases hnext with ⟨err', rfl, herr'⟩ | ⟨l, fault, -, hl, -⟩
    · rw [herr] at herr'
      cases herr'
      rfl
    · rw [herr] at hl
      cases hl
  · intro l hl
    rcases hnext with ⟨err, -, herr⟩ | ⟨l', fault, rfl, hl', hfits, htakes, honly⟩
    · rw [hl] at herr
      cases herr
    rw [hl] at hl'
    cases hl'
    refine ⟨fault, rfl, hfits, fun digits => ⟨?_, ?_⟩⟩
    · rintro rfl
      exact ⟨hfits.1, literalNumber?_eq_none_iff.1 hfits.2, before, htake, htakes ⟨_, _, rfl⟩⟩
    · rintro ⟨htok, hlarge, before', htake', digits', hmore⟩
      obtain rfl : before = before' := by
        rw [htake] at htake'
        exact (List.map_inj_right fun _ _ => Except.ok.inj).1 htake'
      have halike : Token.Alike l.token (.number digits') := by
        rw [htok]
        exact .numerals digits' (literalNumber?_eq_none_iff.2 hlarge)
      obtain ⟨other, rfl⟩ := honly halike hmore
      have hother := hfits.1
      rw [htok] at hother
      cases hother
      rfl

/-- A jump to a line number that is too large is refused in front of a fault. -/
theorem refused_jump : Program.parse "10 GOTO 99999 !" =
      .error (.grammatical ⟨⟨1, 9⟩, .numberOutOfRange "99999"⟩) ∧
    ∃ k, (TokenStream.ofText "10 GOTO 99999 !").SpoiledAt k ∧
      (∀ j < k, ¬ (TokenStream.ofText "10 GOTO 99999 !").SpoiledAt j) ∧
      ∀ err, (TokenStream.ofText "10 GOTO 99999 !").nth k ≠ .error err := by
  have hparse : Program.parse "10 GOTO 99999 !" =
      .error (.grammatical ⟨⟨1, 9⟩, .numberOutOfRange "99999"⟩) := by cbv
  obtain ⟨k, hspoiled, hleast, hlexical, -⟩ := Program.refused_at_first_fault hparse
  refine ⟨hparse, k, hspoiled, hleast, fun err herr => ?_⟩
  cases hlexical err herr

end LineBasic
