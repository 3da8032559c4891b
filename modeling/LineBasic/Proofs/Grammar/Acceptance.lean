import LineBasic.Proofs.Grammar.Completeness
import LineBasic.Proofs.Token.Lexing

/-!
# The programs of texts

A text is a program exactly if all of it can be cut into tokens and these derive from the grammar,
and then it is the program of that derivation.  In particular no text is two programs.

Main results:

- `Reader.consumes_to_end_iff`: the moves that lead to the end of a text.
- `Program.parse_eq_ok_iff`: what `Program.parse` accepts, and with which tree.
-/

namespace LineBasic

open Grammar ReaderState

/-! ## Moving to the end of a text -/

namespace Reader

/-- What a step forward leads to. -/
theorem run_advance_eq_ok_iff {s u : ReaderState} :
    advance.run s = .ok () u ↔ ∃ l later, s.stream.next = (.ok l, later) ∧ u = ⟨l, later⟩ := by
  simp only [advance, EStateM.run]
  cases hnext : s.stream.next with
  | mk d later => cases d <;> simp [eq_comm, and_assoc]

/-- From a token on, the tokens up to the end of the text can be moved over exactly if the stream
delivers them without a fault. -/
theorem consumes_to_end_iff {ds : List Delivery} {stop : Position}
    (hclean : ∀ l, .ok l ∈ ds → l.token ≠ .endOfInput) {c : Lexeme} {later : TokenStream}
    (hnext : (TokenStream.mk ds stop).next = (.ok c, later)) (us : List Token) :
    (∃ u, Consumes ⟨c, later⟩ us u ∧ u.current.token = .endOfInput) ↔
      ∃ lexemes : List Lexeme, (TokenStream.mk ds stop).untilEnd = lexemes.map .ok ∧
        lexemes.map Lexeme.token = us ++ [.endOfInput] := by
  induction ds generalizing c later us with
  | nil =>
    cases hnext
    constructor
    · rintro ⟨u, hus, -⟩
      cases us with
      | nil => exact ⟨[⟨.endOfInput, stop⟩], rfl, rfl⟩
      | cons t us =>
        rcases consumes_cons_iff.1 hus with ⟨htok, hne, -⟩
        exact absurd htok.symm hne
    · rintro ⟨lexemes, hall, htokens⟩
      have hlength := congrArg List.length htokens
      have hone := congrArg List.length hall
      simp only [List.length_map, List.length_append, List.length_singleton] at hlength hone
      have hsingle : (TokenStream.mk [] stop).untilEnd.length = 1 := rfl
      obtain rfl := List.eq_nil_of_length_eq_zero (l := us) (by omega)
      exact ⟨_, .nil _, rfl⟩
  | cons d ds ih =>
    cases hnext
    have hne : c.token ≠ .endOfInput := hclean c List.mem_cons_self
    have hrest : ∀ l, .ok l ∈ ds → l.token ≠ .endOfInput :=
      fun l hl => hclean l (List.mem_cons_of_mem _ hl)
    have hall : (TokenStream.mk (.ok c :: ds) stop).untilEnd =
        .ok c :: (TokenStream.mk ds stop).untilEnd := rfl
    rw [hall]
    constructor
    · rintro ⟨u, hus, hend⟩
      cases us with
      | nil =>
        obtain rfl := consumes_nil_iff.1 hus
        exact absurd hend hne
      | cons t us =>
        rcases consumes_cons_iff.1 hus with ⟨rfl, -, v, hadv, hus⟩
        rcases run_advance_eq_ok_iff.1 hadv with ⟨l, later, hnext, rfl⟩
        rcases (ih hrest hnext us).1 ⟨u, hus, hend⟩ with ⟨lexemes, hlexemes, htokens⟩
        exact ⟨c :: lexemes, by simp [hlexemes], by simp [htokens]⟩
    · rintro ⟨lexemes, hlexemes, htokens⟩
      cases lexemes with
      | nil => cases hlexemes
      | cons l lexemes =>
        rcases List.cons.inj hlexemes with ⟨hl, hlater⟩
        cases hl
        cases us with
        | nil =>
          rcases List.cons.inj htokens with ⟨hend, -⟩
          exact absurd hend hne
        | cons t us =>
          rcases List.cons.inj htokens with ⟨rfl, hothers⟩
          cases hnext : (TokenStream.mk ds stop).next with
          | mk d later =>
            cases d with
            | ok l =>
              rcases (ih hrest hnext us).2 ⟨lexemes, hlater, hothers⟩ with ⟨u, hus, hend⟩
              exact ⟨u, .cons hne (run_advance_eq_ok_iff.2 ⟨l, later, hnext, rfl⟩) hus, hend⟩
            | error e =>
              -- a fault that comes next is all that remains of the stream
              cases ds with
              | nil => cases hnext
              | cons d ds =>
                cases hnext
                cases lexemes <;> cases hlater

/-- A reader at the start of a text gives a program exactly if the tokens up to the end of the
text derive from the grammar. -/
theorem run_program_eq_ok_iff {s : ReaderState} {program : Program} :
    (∃ u, Reader.program.run s = .ok program u) ↔
      ∃ ts u, Lines ts program.lines ∧ Consumes s ts u ∧ u.current.token = .endOfInput := by
  constructor
  · rintro ⟨u, h⟩
    unfold Reader.program at h
    rcases run_bind_eq_ok_iff.1 h with ⟨lines, v, hlines, hpure⟩
    cases hpure
    rcases reads_linesWithin (s.remaining + 1) s.left_le hlines with ⟨ts, hrule, hts, hend⟩
    exact ⟨ts, u, hrule, hts, hend⟩
  · rintro ⟨ts, u, hrule, hts, hend⟩
    have hlength := hts.length_add_left_le
    have hleft := s.left_le
    have hlines := accepts_linesWithin (s.remaining + 1) hrule (by omega) hts hend
    exact ⟨u, run_bind_eq_ok_iff.2 ⟨program.lines, u, hlines, rfl⟩⟩

end Reader

/-! ## Programs -/

/-- A program is parsed from the first token on. -/
theorem Program.parse_eq_ok_iff_run {text : String} {program : Program} :
    Program.parse text = .ok program ↔
      ∃ s, ReaderState.ofText? text = .ok s ∧ ∃ u, Reader.program.run s = .ok program u := by
  unfold Program.parse
  rw [except_bind_eq_ok_iff]
  refine exists_congr fun s => and_congr_right fun _ => ?_
  cases Reader.program.run s <;> simp

/-- The tokens of a text that is a program derive from the grammar, and its tree is that of the
derivation. -/
theorem Program.derives_of_parse {text : String} {program : Program}
    (h : Program.parse text = .ok program) :
    ∃ lexemes : List Lexeme, (TokenStream.ofText text).untilEnd = lexemes.map .ok ∧
      ProgramRule (lexemes.map Lexeme.token) program := by
  rcases Program.parse_eq_ok_iff_run.1 h with ⟨s, hs, hrun⟩
  rcases Reader.run_program_eq_ok_iff.1 hrun with ⟨ts, u, hlines, hts, hend⟩
  unfold ReaderState.ofText? at hs
  split at hs
  · rename_i l later hnext
    cases hs
    obtain ⟨lexemes, hlexemes, htokens⟩ :=
      (Reader.consumes_to_end_iff (fun _ => token_ne_endOfInput_of_mem_upcoming) hnext ts).1
        ⟨u, hts, hend⟩
    refine ⟨lexemes, hlexemes, ?_⟩
    rw [htokens]
    exact .mk hlines
  · cases hs

/-- A stream without faults begins with a token. -/
theorem TokenStream.exists_next_of_untilEnd {s : TokenStream} {lexemes : List Lexeme}
    (h : s.untilEnd = lexemes.map .ok) : ∃ l later, s.next = (.ok l, later) := by
  rcases s with ⟨upcoming, stop⟩
  cases upcoming with
  | nil => exact ⟨_, _, rfl⟩
  | cons d ds =>
    cases d with
    | ok l => exact ⟨_, _, rfl⟩
    | error e => cases lexemes <;> cases h

/-- A text whose tokens derive from the grammar is the program of the derivation. -/
theorem Program.parse_of_derives {text : String} {program : Program} {lexemes : List Lexeme}
    (hlexemes : (TokenStream.ofText text).untilEnd = lexemes.map .ok)
    (hrule : ProgramRule (lexemes.map Lexeme.token) program) :
    Program.parse text = .ok program := by
  rcases TokenStream.exists_next_of_untilEnd hlexemes with ⟨l, later, hnext⟩
  generalize htokens : lexemes.map Lexeme.token = tokens at hrule
  cases hrule with
  | @mk ts lines hlines =>
    obtain ⟨u, hts, hend⟩ :=
      (Reader.consumes_to_end_iff (fun _ => token_ne_endOfInput_of_mem_upcoming) hnext ts).2
        ⟨lexemes, hlexemes, htokens⟩
    have hstart : ReaderState.ofText? text = .ok ⟨l, later⟩ := by
      simp only [ReaderState.ofText?, hnext]
    have hrun := Reader.run_program_eq_ok_iff.2 ⟨ts, u, hlines, hts, hend⟩
    exact Program.parse_eq_ok_iff_run.2 ⟨_, hstart, hrun⟩

/-- A text is a program exactly if it is cut into tokens without a fault and all of these, the end
of the text included, derive from the grammar; it is then the program of the derivation. -/
theorem Program.parse_eq_ok_iff (text : String) (program : Program) :
    Program.parse text = .ok program ↔
      ∃ lexemes : List Lexeme, (TokenStream.ofText text).untilEnd = lexemes.map .ok ∧
        ProgramRule (lexemes.map Lexeme.token) program := by
  constructor
  · exact Program.derives_of_parse
  · rintro ⟨lexemes, hlexemes, hrule⟩
    exact Program.parse_of_derives hlexemes hrule

end LineBasic
