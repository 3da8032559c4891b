import LineBasic.Proofs.Token.Lexes
import LineBasic.Proofs.Token.Lexing

/-!
# Writing tokens

Tokens that are written with blanks between them are read back, whatever their spellings and
whatever the blanks.  Every token that can be spelled has a plain spelling, in which keywords are
in capitals and unequal is an exclamation mark with an equals sign.

Main definitions:

- `Written`: texts in which given tokens are written.
- `Token.spell` and `writeTokens`: the plain spelling of a token, and of many.

Main results:

- `untilError_of_written`: what is written is read.
- `written_writeTokens`: tokens that can be spelled are written by their plain spellings.
- `TokenReader.take_eq`: a reader answers up to the end or the first fault, and nothing after it.
- `reading_undoes_writing`: a reader gives the tokens that were written, and the end once.
-/

namespace LineBasic

/-! ## Written tokens -/

/-- A text in which tokens are written, with blanks between them. -/
inductive Written : List Token → List Char → Prop where
  | nil {gap} : (∀ c ∈ gap, c = ' ' ∨ c = '\t') → Written [] gap
  | cons {gap t w ts rest} : (∀ c ∈ gap, c = ' ' ∨ c = '\t') → t.SpelledAs w →
      (∀ c ∈ rest.head?, c = ' ' ∨ c = '\t') → Written ts rest →
      Written (t :: ts) (gap ++ w ++ rest)

/-- What is written is tokens with blanks between them. -/
theorem Written.lexes {ts : List Token} {cs : List Char} (h : Written ts cs) : Lexes cs ts [] := by
  induction h with
  | @nil gap hgap =>
    rw [← List.append_nil gap]
    exact Lexes.nil.blanks fun c hc => isGap_iff.2 (hgap c hc)
  | @cons gap t w ts rest hgap hspelled hrest _ ih =>
    rw [List.append_assoc]
    refine Lexes.blanks (fun c hc => isGap_iff.2 (hgap c hc)) (.token hspelled ?_ ih)
    rw [List.append_nil]
    exact fun c hc => t.prolongedBy_of_isGap (isGap_iff.2 (hrest c hc))

/-- Tokens that are written are read, one after the other and without a fault. -/
theorem untilError_of_written {ts : List Token} {cs : List Char} (h : Written ts cs)
    (final : Lexeme) (p : Position) :
    ∃ lexemes : List Lexeme, untilError final (deliveries p (pieces cs)) = lexemes.map .ok ∧
      lexemes.map Lexeme.token = ts ++ [final.token] :=
  h.lexes.untilError_eq final p

/-! ## Plain spellings -/

/-- The plain spelling of a token. -/
def Token.spell : Token → List Char
  | number digits => digits.toList
  | text content => '"' :: content.toList ++ ['"']
  | identifier spelling => spelling.toList
  | keyword k => k.spelling.toList
  | plus => ['+']
  | minus => ['-']
  | times => ['*']
  | divide => ['/']
  | becomes => ['=']
  | equal => ['=', '=']
  | notEqual => ['!', '=']
  | greater => ['>']
  | greaterEqual => ['>', '=']
  | less => ['<']
  | lessEqual => ['<', '=']
  | leftParen => ['(']
  | rightParen => [')']
  | comma => [',']
  | lineBreak => ['\r', '\n']
  | endOfInput => []

/-- Keywords are spelled by letters. -/
theorem Keyword.spelledAs_spelling (k : Keyword) :
    Token.SpelledAs (.keyword k) k.spelling.toList := by
  have hletters : ∃ c w, k.spelling.toList = c :: w ∧ c.isAlpha = true ∧
      ∀ d ∈ w, d.isAlphanum = true := by
    cases k <;> exact ⟨_, _, rfl, rfl, List.all_eq_true.1 rfl⟩
  rcases hletters with ⟨c, w, heq, hc, hw⟩
  rw [heq]
  refine .keyword hc hw ?_
  rw [← heq, String.ofList_toList, upper_spelling]

/-- A token that can be spelled at all has its plain spelling. -/
theorem Token.SpelledAs.spell {t : Token} {w : List Char} (h : t.SpelledAs w) :
    t.SpelledAs t.spell := by
  cases h with
  | number hne hdigits =>
    rw [Token.spell, String.toList_ofList]
    exact .number hne hdigits
  | text hquotable =>
    rw [Token.spell, String.toList_ofList]
    exact .text hquotable
  | @keyword c w k => exact k.spelledAs_spelling
  | identifier halpha halnum hspelling =>
    rw [Token.spell, String.toList_ofList]
    exact .identifier halpha halnum hspelling
  | sign hsign =>
    have hall : ∀ s ∈ signs, (s.1, s.1.spell) ∈ signs := by decide
    exact .sign (hall _ hsign)

/-- Tokens in their plain spellings, each with a blank behind it. -/
def writeTokens (ts : List Token) : List Char :=
  ts.flatMap fun t => t.spell ++ [' ']

/-- Tokens that can be spelled are written by their plain spellings. -/
theorem written_writeTokens {ts : List Token} (h : ∀ t ∈ ts, t.HasSpelling)
    {gap : List Char} (hgap : ∀ c ∈ gap, c = ' ' ∨ c = '\t') :
    Written ts (gap ++ writeTokens ts) := by
  induction ts generalizing gap with
  | nil => simpa [writeTokens] using Written.nil hgap
  | cons t ts ih =>
    rcases List.forall_mem_cons.1 h with ⟨⟨w, hw⟩, hrest⟩
    have hlater : Written ts ([' '] ++ writeTokens ts) := ih hrest (by simp)
    have hall := Written.cons hgap hw.spell (by simp) hlater
    simpa [writeTokens] using hall

/-- Only tokens that can be spelled are written. -/
theorem Written.hasSpelling {ts : List Token} {cs : List Char} (h : Written ts cs) :
    ∀ t ∈ ts, t.HasSpelling := by
  induction h with
  | nil => simp
  | cons _ hspelled _ _ ih => exact List.forall_mem_cons.2 ⟨⟨_, hspelled⟩, ih⟩

/-! ## Reading once -/

namespace TokenReader

/-- A reader that has come to its end has nothing more. -/
theorem take_of_finished (s : TokenStream) (n : Nat) :
    (TokenReader.mk s true).take n = List.replicate n none := by
  induction n with
  | zero => rfl
  | succ n ih =>
    rw [List.replicate_succ, ← ih]
    rfl

/-- A reader answers with what its stream delivers up to the end or the first fault, and with
nothing after that.  The end does not stand among what is upcoming. -/
theorem take_eq {s : TokenStream} (h : ∀ l, .ok l ∈ s.upcoming → l.token ≠ .endOfInput) (n : Nat) :
    (TokenReader.mk s false).take n = (s.untilEnd.map some ++ List.replicate n none).take n := by
  rcases s with ⟨upcoming, stop⟩
  induction n generalizing upcoming with
  | zero => rfl
  | succ n ih =>
    -- behind the last answer there are only empty ones
    have hlast (d : Delivery) (s' : TokenStream) :
        some d :: (TokenReader.mk s' true).take n =
          ([d].map some ++ List.replicate (n + 1) none).take (n + 1) := by
      rw [take_of_finished, List.map_singleton, List.singleton_append, List.take_succ_cons,
        List.take_replicate, Nat.min_eq_left (Nat.le_succ n)]
    cases upcoming with
    | nil => exact hlast ..
    | cons d later =>
      cases d with
      | error e => exact hlast ..
      | ok l =>
        have hgoes : isLast (.ok l) = false := beq_false_of_ne (h l List.mem_cons_self)
        have hlater := ih later fun l hl => h l (List.mem_cons_of_mem _ hl)
        have hstep : (TokenReader.mk ⟨Except.ok l :: later, stop⟩ false).take (n + 1) =
            some (Except.ok l) :: (TokenReader.mk ⟨later, stop⟩ false).take n := by
          change some (Except.ok l) :: (TokenReader.mk ⟨later, stop⟩ (isLast (.ok l))).take n = _
          rw [hgoes]
        rw [hstep, hlater, ← take_append_replicate_succ]
        rfl

end TokenReader

/-- Tokens can be written if each of them can be spelled.  A reader of any text in which they are
written, in whatever spellings and with whatever blanks, gives exactly these tokens, then the end
of the text, and then nothing any more. -/
theorem reading_undoes_writing (ts : List Token) :
    ((∃ text : String, Written ts text.toList) ↔ ∀ t ∈ ts, t.HasSpelling) ∧
      ∀ text : String, Written ts text.toList →
        ∃ lexemes : List Lexeme, lexemes.map Lexeme.token = ts ++ [.endOfInput] ∧
          ∀ n, (TokenReader.ofText text).take n =
            ((lexemes.map fun l => some (Except.ok l)) ++ List.replicate n none).take n := by
  refine ⟨⟨?_, fun h => ?_⟩, fun text h => ?_⟩
  · rintro ⟨text, h⟩
    exact h.hasSpelling
  · refine ⟨String.ofList (writeTokens ts), ?_⟩
    have hwritten : Written ts ([] ++ writeTokens ts) := written_writeTokens h (by simp)
    rwa [String.toList_ofList]
  · have hread := untilError_of_written h (TokenStream.ofText text).final .start
    rcases hread with ⟨lexemes, hlexemes, htokens⟩
    refine ⟨lexemes, htokens, fun n => ?_⟩
    have hanswers := TokenReader.take_eq (s := .ofText text)
      (fun l => token_ne_endOfInput_of_mem_upcoming) n
    rw [show (TokenStream.ofText text).untilEnd = lexemes.map Except.ok from hlexemes,
      List.map_map] at hanswers
    exact hanswers

/-- Both spellings of unequal, a keyword in mixed case and a text with a hash sign, behind tabs
and spaces. -/
theorem mixed_spellings_read_back :
    let ts := [.keyword .print, .text "a # b", .notEqual, .notEqual, .lineBreak]
    let text := "pRiNt\t\"a # b\"  <> != \r\n"
    Written ts text.toList ∧ ∃ lexemes : List Lexeme,
      lexemes.map Lexeme.token = ts ++ [.endOfInput] ∧ ∀ n, (TokenReader.ofText text).take n =
        ((lexemes.map fun l => some (Except.ok l)) ++ List.replicate n none).take n := by
  intro ts text
  have hwritten : Written ts text.toList := by
    have hprint : Token.SpelledAs (.keyword .print) ['p', 'R', 'i', 'N', 't'] :=
      .keyword rfl (List.all_eq_true.1 rfl) (by decide)
    have htext : Token.SpelledAs (.text "a # b") ['"', 'a', ' ', '#', ' ', 'b', '"'] :=
      .text (w := ['a', ' ', '#', ' ', 'b']) (by simp)
    have hangles : Token.SpelledAs .notEqual ['<', '>'] := .sign (by simp [signs])
    have hmark : Token.SpelledAs .notEqual ['!', '='] := .sign (by simp [signs])
    have hbreak : Token.SpelledAs .lineBreak ['\r', '\n'] := .sign (by simp [signs])
    have hspaced : text.toList = [] ++ ['p', 'R', 'i', 'N', 't'] ++
        (['\t'] ++ ['"', 'a', ' ', '#', ' ', 'b', '"'] ++ ([' ', ' '] ++ ['<', '>'] ++
          ([' '] ++ ['!', '='] ++ ([' '] ++ ['\r', '\n'] ++ [])))) := by decide
    rw [hspaced]
    exact .cons (by simp) hprint (by simp) <| .cons (by simp) htext (by simp) <|
      .cons (by simp) hangles (by simp) <| .cons (by simp) hmark (by simp) <|
        .cons (by simp) hbreak (by simp) <| .nil (by simp)
  exact ⟨hwritten, (reading_undoes_writing ts).2 text hwritten⟩

end LineBasic
