import Mathlib
import LineBasic.Proofs.Token.LetterCase
import LineBasic.Toolchain

/-!
# Letter case disregarded

A reader of tokens that finds identifiers in capitals comes to the same result as one that finds
them as they are written.  So texts that differ only in the case of letters outside quoted texts
are the same program, or are refused at the same place for the same reason, and nothing that is
done with a program tells them apart.

Main definitions:

- `Reader.IgnoresCase`: readers that make no difference between an identifier and its capitals.
- `ParseError.Alike`: errors that are the same but for the letter case of the token found.
- `UsedAlike`: texts between which no use makes a difference.

Main results:

- `Reader.ignoresCase_program`: the reader of programs ignores case.
- `usedAlike_of_differsInCase`: texts that differ only in letter case are used alike.
-/

namespace LineBasic

/-! ## Errors and states in capitals -/

/-- A fault with the identifier that it found in capitals. -/
def SyntaxFault.capital : SyntaxFault → SyntaxFault
  | unexpected expected found => unexpected expected found.capital
  | fault => fault

/-- An error with the identifier that it found in capitals. -/
def ParseError.capital : ParseError → ParseError
  | lexical e => lexical e
  | grammatical e => grammatical { e with fault := e.fault.capital }

/-- A state with all identifiers that are still to be read in capitals. -/
def ReaderState.capital (s : ReaderState) : ReaderState where
  current := s.current.capital
  stream := s.stream.capital

/-- Capitals do not change how much is left to read. -/
theorem ReaderState.remaining_capital (s : ReaderState) : s.capital.remaining = s.remaining :=
  List.length_map _

namespace Reader

variable {α β : Type}

/-- A result with the identifiers that are still to be read in capitals. -/
def capitalResult :
    EStateM.Result ParseError ReaderState α → EStateM.Result ParseError ReaderState α
  | .ok a s => .ok a s.capital
  | .error e s => .error e.capital s.capital

/-- A reader that comes to the same result when all identifiers are in capitals. -/
def IgnoresCase (r : Reader α) : Prop :=
  ∀ s : ReaderState, r.run s.capital = capitalResult (r.run s)

namespace IgnoresCase

/-! ## Sequences -/

theorem pure (a : α) : IgnoresCase (Pure.pure a) :=
  fun _ => rfl

theorem bind {r : Reader α} {f : α → Reader β} (hr : IgnoresCase r)
    (hf : ∀ a, IgnoresCase (f a)) : IgnoresCase (r >>= f) := by
  intro s
  rw [EStateM.run_bind, EStateM.run_bind, hr s]
  cases r.run s with
  | ok a u => exact hf a u
  | error e u => rfl

theorem map {r : Reader α} (f : α → β) (hr : IgnoresCase r) : IgnoresCase (f <$> r) := by
  rw [map_eq_pure_bind]
  exact hr.bind fun a => .pure (f a)

/-- What is done on account of the current token is to be the same for an identifier and its
capitals. -/
theorem peek_bind {f : Token → Reader α} (hsame : ∀ t : Token, f t.capital = f t)
    (hf : ∀ t, IgnoresCase (f t)) : IgnoresCase (peek >>= f) := by
  intro s
  have hhere : (peek >>= f).run s.capital = (f s.current.token.capital).run s.capital := rfl
  rw [hhere, hsame]
  exact hf s.current.token s

theorem unexpected (expected : Expected) : IgnoresCase (Reader.unexpected expected : Reader α) :=
  fun _ => rfl

theorem outOfRange (digits : String) :
    IgnoresCase (refuse (.numberOutOfRange digits) : Reader α) :=
  fun _ => rfl

theorem advance : IgnoresCase Reader.advance := by
  rintro ⟨c, ⟨ds, stop⟩⟩
  cases ds with
  | nil => rfl
  | cons d ds => cases d <;> rfl

theorem bounded {action : Nat → Reader α} (h : ∀ n, IgnoresCase (action n)) :
    IgnoresCase (Reader.bounded action) := by
  intro s
  have hhere : (Reader.bounded action).run s.capital =
      (action (s.capital.remaining + 1)).run s.capital := rfl
  rw [hhere, s.remaining_capital]
  exact h _ s

end IgnoresCase

/-! ## Tokens -/

/-- Only identifiers are written in capitals. -/
theorem capital_eq_iff {t u : Token} (hu : ∀ x, u ≠ .identifier x) : t.capital = u ↔ t = u := by
  cases t with
  | identifier x => exact ⟨fun h => absurd h.symm (hu _), fun h => absurd h.symm (hu _)⟩
  | _ => exact Iff.rfl

theorem ignoresCase_eat {u : Token} (hu : ∀ x, u ≠ .identifier x) : IgnoresCase (eat u) := by
  refine .peek_bind (fun t => ?_) fun t => ?_
  · simp only [capital_eq_iff hu]
  · split
    · exact IgnoresCase.advance.bind fun _ => .pure true
    · exact .pure false

theorem ignoresCase_expect {u : Token} (hu : ∀ x, u ≠ .identifier x) : IgnoresCase (expect u) := by
  refine (ignoresCase_eat hu).bind fun found => ?_
  cases found with
  | true => exact .pure ()
  | false => exact .unexpected _

theorem ignoresCase_numberLiteral : IgnoresCase numberLiteral := by
  refine .peek_bind (fun t => by cases t <;> rfl) fun t => ?_
  split
  · split
    · exact IgnoresCase.advance.bind fun _ => .pure _
    · exact .outOfRange _
  · exact .unexpected _

theorem ignoresCase_identifier : IgnoresCase identifier := by
  refine .peek_bind (fun t => ?_) fun t => ?_
  · cases t with
    | identifier x => simp only [Token.capital, upper_upper]
    | _ => rfl
  · split
    · exact IgnoresCase.advance.bind fun _ => .pure _
    · exact .unexpected _

theorem ignoresCase_relation : IgnoresCase relation := by
  refine .peek_bind (fun t => by cases t <;> rfl) fun t => ?_
  split
  · exact IgnoresCase.advance.bind fun _ => .pure _
  · exact .unexpected _

/-! ## Lists -/

theorem ignoresCase_afterCommas {element : Reader α} (h : IgnoresCase element) (n : Nat) :
    IgnoresCase (afterCommas element n) := by
  induction n with
  | zero => exact .pure []
  | succ n ih =>
    refine (ignoresCase_eat (by simp)).bind fun found => ?_
    cases found with
    | true => exact h.bind fun first => ih.bind fun rest => .pure (first :: rest)
    | false => exact .pure []

theorem ignoresCase_commaList {element : Reader α} (h : IgnoresCase element) (n : Nat) :
    IgnoresCase (commaList element n) :=
  h.bind fun first => (ignoresCase_afterCommas h n).bind fun rest => .pure (first :: rest)

theorem ignoresCase_leftAssoc {op? : Token → Option ArithOp}
    (hop : ∀ t : Token, op? t.capital = op? t) {operand : Reader Expr}
    (h : IgnoresCase operand) (n : Nat) (lhs : Expr) :
    IgnoresCase (leftAssoc op? operand n lhs) := by
  induction n generalizing lhs with
  | zero => exact .pure lhs
  | succ n ih =>
    refine .peek_bind (fun t => by rw [hop]) fun t => ?_
    split
    · exact IgnoresCase.advance.bind fun _ => h.bind fun rhs => ih _
    · exact .pure lhs

/-! ## Expressions -/

theorem ignoresCase_factor {nested : Reader Expr} (h : IgnoresCase nested) :
    IgnoresCase (factor nested) := by
  refine .peek_bind (fun t => by cases t <;> rfl) fun t => ?_
  split
  · exact ignoresCase_identifier.map _
  · exact ignoresCase_numberLiteral.map _
  · exact IgnoresCase.advance.bind fun _ => h.bind fun e =>
      (ignoresCase_expect (by simp)).bind fun _ => .pure e
  · exact .unexpected _

theorem ignoresCase_term {nested : Reader Expr} (h : IgnoresCase nested) (n : Nat) :
    IgnoresCase (term nested n) :=
  (ignoresCase_factor h).bind fun first =>
    ignoresCase_leftAssoc (fun t => by cases t <;> rfl) (ignoresCase_factor h) n first

theorem ignoresCase_sum {nested : Reader Expr} (h : IgnoresCase nested) (n : Nat) :
    IgnoresCase (sum nested n) :=
  (ignoresCase_eat (by simp)).bind fun _ => (ignoresCase_eat (by simp)).bind fun _ =>
    (ignoresCase_term h n).bind fun _ =>
      ignoresCase_leftAssoc (fun t => by cases t <;> rfl) (ignoresCase_term h n) n _

theorem ignoresCase_exprWithin (n : Nat) : IgnoresCase (exprWithin n) := by
  induction n with
  | zero => exact .unexpected _
  | succ n ih => exact ignoresCase_sum ih (n + 1)

theorem ignoresCase_itemWithin (n : Nat) : IgnoresCase (itemWithin n) := by
  refine .peek_bind (fun t => by cases t <;> rfl) fun t => ?_
  split
  · exact IgnoresCase.advance.bind fun _ => .pure _
  · exact ignoresCase_exprWithin n

theorem ignoresCase_itemsWithin (n : Nat) : IgnoresCase (itemsWithin n) :=
  ignoresCase_commaList (ignoresCase_itemWithin n) n

/-! ## Statements and programs -/

theorem ignoresCase_conditional {nested : Reader Stmt} (h : IgnoresCase nested) (n : Nat) :
    IgnoresCase (conditional nested n) :=
  IgnoresCase.advance.bind fun _ => (ignoresCase_exprWithin n).bind fun _ =>
    ignoresCase_relation.bind fun _ => (ignoresCase_exprWithin n).bind fun _ =>
      (ignoresCase_expect (by simp)).bind fun _ => h.bind fun _ => .pure _

theorem ignoresCase_statementOf {nested : Reader Stmt} (h : IgnoresCase nested) (n : Nat)
    (k : Keyword) : IgnoresCase (statementOf nested n k) := by
  cases k with
  | integer | string =>
    exact IgnoresCase.advance.bind fun _ => (ignoresCase_commaList ignoresCase_identifier n).map _
  | assign =>
    exact IgnoresCase.advance.bind fun _ => ignoresCase_identifier.bind fun _ =>
      (ignoresCase_expect (by simp)).bind fun _ => (ignoresCase_itemWithin n).bind fun _ => .pure _
  | input => exact IgnoresCase.advance.bind fun _ => ignoresCase_identifier.map _
  | print => exact IgnoresCase.advance.bind fun _ => (ignoresCase_itemsWithin n).map _
  | test => exact ignoresCase_conditional h n
  | goto | gosub => exact IgnoresCase.advance.bind fun _ => ignoresCase_numberLiteral.map _
  | ret | stop => exact IgnoresCase.advance.bind fun _ => .pure _
  | consequent => exact .unexpected _

theorem ignoresCase_statementWithin (n : Nat) : IgnoresCase (statementWithin n) := by
  induction n with
  | zero => exact .unexpected _
  | succ n ih =>
    refine .peek_bind (fun t => by cases t <;> rfl) fun t => ?_
    split
    · exact ignoresCase_statementOf ih (n + 1) _
    · exact .unexpected _

theorem ignoresCase_lineWithin? (n : Nat) : IgnoresCase (lineWithin? n) := by
  refine .peek_bind (fun t => by cases t <;> rfl) fun t => ?_
  split
  · exact (ignoresCase_numberLiteral.bind fun _ =>
      (ignoresCase_statementWithin n).bind fun _ => .pure _).map _
  · exact .pure []

theorem ignoresCase_linesWithin (n : Nat) : IgnoresCase (linesWithin n) := by
  induction n with
  | zero => exact .pure []
  | succ n ih =>
    have hend (t : Token) : t.capital = .endOfInput ↔ t = .endOfInput := capital_eq_iff (by simp)
    refine .peek_bind (fun t => by simp only [hend]) fun t => ?_
    split
    · exact .pure []
    · refine (ignoresCase_lineWithin? (n + 1)).bind fun here => ?_
      refine .peek_bind (fun t => by simp only [hend]) fun t => ?_
      split
      · exact .pure here
      · exact (ignoresCase_expect (by simp)).bind fun _ => ih.bind fun _ => .pure _

/-- A program is read alike in every letter case. -/
theorem ignoresCase_program : IgnoresCase Reader.program :=
  (IgnoresCase.bounded ignoresCase_linesWithin).map _

end Reader

/-! ## Outcomes that agree -/

/-- Computations that give the same value, or fail with errors that are alike. -/
inductive SameOutcome {ε α : Type} (alike : ε → ε → Prop) : Except ε α → Except ε α → Prop where
  | ok (a : α) : SameOutcome alike (.ok a) (.ok a)
  | error {e e' : ε} : alike e e' → SameOutcome alike (.error e) (.error e')

namespace SameOutcome

variable {ε ε' α β : Type} {alike : ε → ε → Prop} {x y : Except ε α}

/-- What is done with equal values has the same outcome. -/
theorem bind (h : SameOutcome alike x y) (hrefl : ∀ e, alike e e) (f : α → Except ε β) :
    SameOutcome alike (x >>= f) (y >>= f) := by
  cases h with
  | ok a =>
    change SameOutcome alike (f a) (f a)
    cases f a with
    | ok b => exact .ok b
    | error e => exact .error (hrefl e)
  | error he => exact .error he

/-- Errors that are alike stay so under another name. -/
theorem mapError {alike' : ε' → ε' → Prop} {g : ε → ε'} (h : SameOutcome alike x y)
    (hg : ∀ {e e'}, alike e e' → alike' (g e) (g e')) :
    SameOutcome alike' (x.mapError g) (y.mapError g) := by
  cases h with
  | ok a => exact .ok a
  | error he => exact .error (hg he)

end SameOutcome

/-! ## Parsing -/

/-- Errors of the same kind at the same position.  What was expected is the same, and what was
found is the same but for letter case. -/
inductive ParseError.Alike : ParseError → ParseError → Prop where
  | lexical (e : LexicalError) : Alike (.lexical e) (.lexical e)
  | unexpected (p : Position) (expected : Expected) {found found' : Token} :
      found.capital = found'.capital →
      Alike (.grammatical ⟨p, .unexpected expected found⟩)
        (.grammatical ⟨p, .unexpected expected found'⟩)
  | numberOutOfRange (p : Position) (digits : String) :
      Alike (.grammatical ⟨p, .numberOutOfRange digits⟩)
        (.grammatical ⟨p, .numberOutOfRange digits⟩)

theorem ParseError.Alike.refl (e : ParseError) : Alike e e := by
  rcases e with e | ⟨p, _ | digits⟩
  · exact .lexical e
  · exact .unexpected p _ rfl
  · exact .numberOutOfRange p digits

/-- Errors that are the same in capitals are alike. -/
theorem ParseError.alike_of_capital_eq {e e' : ParseError} (h : e.capital = e'.capital) :
    e.Alike e' := by
  rcases e with e | ⟨p, ⟨expected, found⟩ | digits⟩ <;>
    rcases e' with e' | ⟨p', ⟨expected', found'⟩ | digits'⟩ <;>
    simp only [ParseError.capital, SyntaxFault.capital, ParseError.lexical.injEq,
      ParseError.grammatical.injEq, SyntaxError.mk.injEq, SyntaxFault.unexpected.injEq,
      SyntaxFault.numberOutOfRange.injEq, reduceCtorEq, and_false] at h
  · exact h ▸ .lexical e
  · obtain ⟨rfl, rfl, hfound⟩ := h
    exact .unexpected p expected hfound
  · obtain ⟨rfl, rfl⟩ := h
    exact .numberOutOfRange p digits

/-- The first step of a stream in capitals. -/
theorem TokenStream.next_capital (s : TokenStream) :
    s.capital.next = (s.next.1.map Lexeme.capital, s.next.2.capital) := by
  rcases s with ⟨_ | _, stop⟩ <;> rfl

/-- In capitals, readers of texts with the same stream in capitals start in the same state. -/
theorem ReaderState.map_capital_ofText? {source other : String}
    (h : (TokenStream.ofText source).capital = (TokenStream.ofText other).capital) :
    (ReaderState.ofText? source).map capital = (ReaderState.ofText? other).map capital := by
  have hnext := congrArg TokenStream.next h
  rw [TokenStream.next_capital, TokenStream.next_capital] at hnext
  unfold ReaderState.ofText?
  generalize (TokenStream.ofText source).next = first at hnext ⊢
  generalize (TokenStream.ofText other).next = first' at hnext ⊢
  rcases Prod.mk.inj hnext with ⟨hdelivery, hlater⟩
  rcases first with ⟨e | l, later⟩ <;> rcases first' with ⟨e' | l', later'⟩ <;>
    simp only [Except.map, reduceCtorEq, Except.error.injEq, Except.ok.injEq] at hdelivery
  · rw [hdelivery]
  · simp only [Except.map, ReaderState.capital, hdelivery, hlater]

/-- Texts with the same stream in capitals are the same program, or are refused alike. -/
theorem Program.parse_alike {source other : String}
    (h : (TokenStream.ofText source).capital = (TokenStream.ofText other).capital) :
    SameOutcome ParseError.Alike (Program.parse source) (Program.parse other) := by
  have hstart := ReaderState.map_capital_ofText? h
  unfold Program.parse
  generalize ReaderState.ofText? source = start at hstart ⊢
  generalize ReaderState.ofText? other = start' at hstart ⊢
  rcases start with e | s <;> rcases start' with e' | s' <;> simp only [Except.map, reduceCtorEq,
    Except.error.injEq, Except.ok.injEq] at hstart
  · rw [hstart]
    exact .error (.refl _)
  · have hrun := Reader.ignoresCase_program s
    rw [hstart, Reader.ignoresCase_program s'] at hrun
    simp only [bind, Except.bind]
    generalize Reader.program.run s = result at hrun ⊢
    generalize Reader.program.run s' = result' at hrun ⊢
    cases result <;> cases result' <;> simp only [Reader.capitalResult, reduceCtorEq,
      EStateM.Result.ok.injEq, EStateM.Result.error.injEq] at hrun
    · rw [hrun.1]
      exact .ok _
    · exact .error (ParseError.alike_of_capital_eq hrun.1.symm)

/-! ## Uses of a text -/

/-- Reasons that are the same but for the letter case of a token found. -/
inductive SourceError.Alike : SourceError → SourceError → Prop where
  | parse {e e' : ParseError} : e.Alike e' → Alike (.parse e) (.parse e')
  | structural (e : StructuralError) : Alike (.structural e) (.structural e)
  | typing (e : TypeError) : Alike (.typing e) (.typing e)

theorem SourceError.Alike.refl (e : SourceError) : Alike e e := by
  cases e with
  | parse e => exact .parse (.refl e)
  | structural e => exact .structural e
  | typing e => exact .typing e

/-- No use of the texts makes a difference between them. -/
structure UsedAlike (source other : String) : Prop where
  parse : SameOutcome ParseError.Alike (Program.parse source) (Program.parse other)
  outline : SameOutcome SourceError.Alike (outline source) (outline other)
  assemblyText : SameOutcome SourceError.Alike (assemblyText source) (assemblyText other)
  interpret : ∀ input : List UInt8,
    SameOutcome SourceError.Alike (interpret source input) (interpret other input)

/-- Texts that differ only in the case of letters outside quoted texts are the same program or are
refused at the same place for the same reason, and have the same outline, the same assembly text
and the same performance on every input. -/
theorem usedAlike_of_differsInCase {source other : String} (h : DiffersInCase source other) :
    UsedAlike source other := by
  have hparse := Program.parse_alike h.capital_eq
  have hcheck : SameOutcome SourceError.Alike (check source) (check other) :=
    (hparse.mapError .parse).bind .refl _
  exact {
    parse := hparse
    outline := hcheck.bind .refl _
    assemblyText := (hcheck.bind .refl _).bind .refl _
    interpret := fun _ => hcheck.bind .refl _ }

/-- The keyword and the name change their case, and the quoted text does not. -/
theorem usedAlike_of_greeting :
    DiffersInCase "1 let s=\"Hi\"" "1 LET S=\"Hi\"" ∧
      UsedAlike "1 let s=\"Hi\"" "1 LET S=\"Hi\"" ∧
      Program.parse "1 let s=\"Hi\"" = .ok ⟨[⟨1, .assign "S" (.text "Hi")⟩]⟩ := by
  have hpieces : pieces "1 let s=\"Hi\"".toList =
      [⟨.token (.number "1"), ['1']⟩, ⟨.blank, [' ']⟩,
        ⟨.token (.keyword .assign), ['l', 'e', 't']⟩, ⟨.blank, [' ']⟩,
        ⟨.token (.identifier "s"), ['s']⟩, ⟨.token .becomes, ['=']⟩,
        ⟨.token (.text "Hi"), ['"', 'H', 'i', '"']⟩] := by cbv
  have hother : "1 LET S=\"Hi\"".toList =
      ['1'] ++ ([' '] ++ (['L', 'E', 'T'] ++ ([' '] ++ (['S'] ++ (['='] ++
        (['"', 'H', 'i', '"'] ++ [])))))) := by cbv
  have hdiffers : DiffersInCase "1 let s=\"Hi\"" "1 LET S=\"Hi\"" := by
    rw [DiffersInCase, hpieces, hother]
    have hplain {kind : PieceKind} {text w : List Char}
        (h : ∀ content, kind ≠ .token (.text content)) :
        Piece.IsQuotedText ⟨kind, text⟩ → w = text := by
      rintro ⟨content, heq⟩
      exact absurd heq (h content)
    exact .cons rfl (hplain (by simp)) (.cons rfl (hplain (by simp)) (.cons rfl (hplain (by simp))
      (.cons rfl (hplain (by simp)) (.cons rfl (hplain (by simp)) (.cons rfl (hplain (by simp))
        (.cons rfl (fun _ => rfl) .nil))))))
  exact ⟨hdiffers, usedAlike_of_differsInCase hdiffers, by cbv⟩

end LineBasic
