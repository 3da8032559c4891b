import LineBasic.Proofs.Grammar.Soundness

/-!
# Readers look at one token only

A reader that fails has moved over some tokens and refuses the one behind them, or does not get
the one behind them because the stream has a fault there.  What it does depends only on these
tokens: from every other state with the same tokens ahead it does the same, whatever comes later.

Main definitions:

- `ReaderState.Meets`: the moves that lead up to an error.
- `Token.Alike`: tokens between which no reader tells a difference, but for numerals that are too
  large.
- `Reader.LocalAt`: what a reader does depends only on the tokens that it moves over and the one
  behind them.

Main results:

- `Reader.LocalAt.bind`: sequences depend only on these tokens if their parts do.
- `Reader.local_exprWithin`, `Reader.local_statementWithin`, `Reader.local_linesWithin`: so do the
  readers of expressions, statements and programs.
-/

namespace LineBasic

open Grammar ReaderState

/-! ## Moving up to an error -/

/-- A fault is about a token: it names it, or its digits are those of a number too large. -/
def SyntaxFault.Fits (fault : SyntaxFault) (t : Token) : Prop :=
  match fault with
  | unexpected _ found => found = t
  | numberOutOfRange digits => t = .number digits ∧ literalNumber? digits = none

namespace ReaderState

/-- Moving over the tokens of a list up to an error: the token behind them is refused, or the
stream has a fault behind them. -/
inductive Meets : ReaderState → List Token → ParseError → ReaderState → Prop where
  | refused {s u ts} {fault : SyntaxFault} : Consumes s ts u → fault.Fits u.current.token →
      Meets s ts (.grammatical ⟨u.current.position, fault⟩) u
  | faulty {s u v ts e} : Consumes s ts u → u.current.token ≠ .endOfInput →
      Reader.advance.run u = .error (.lexical e) v →
      Meets s (ts ++ [u.current.token]) (.lexical e) v

/-- Moves in front of those that lead up to an error. -/
theorem Consumes.meets {s t u : ReaderState} {ts us : List Token} {e : ParseError}
    (h₁ : Consumes s ts t) (h₂ : Meets t us e u) : Meets s (ts ++ us) e u := by
  cases h₂ with
  | refused hus hfits => exact .refused (h₁.append hus) hfits
  | faulty hus hne hadv =>
    rw [← List.append_assoc]
    exact .faulty (h₁.append hus) hne hadv

/-- A refused token stands behind the tokens that have been moved over. -/
theorem Meets.consumes {s u : ReaderState} {ts : List Token} {e : SyntaxError}
    (h : Meets s ts (.grammatical e) u) : Consumes s ts u := by
  cases h with
  | refused hts hfits => exact hts

/-- Between two states there is one way only. -/
theorem Consumes.unique {s u : ReaderState} {ts us : List Token} (h₁ : Consumes s ts u)
    (h₂ : Consumes s us u) : ts = us := by
  induction h₁ generalizing us with
  | nil s =>
    have hlen := h₂.length_add_left_le
    exact (List.eq_nil_of_length_eq_zero (by omega)).symm
  | @cons s t u ts hne hadv hts ih =>
    cases us with
    | nil =>
      -- the way that has been gone would lead back
      obtain rfl := consumes_nil_iff.1 h₂
      have hlen := hts.length_add_left_le
      have hlt := left_lt_of_advance hne hadv
      omega
    | cons t' us =>
      rcases consumes_cons_iff.1 h₂ with ⟨rfl, -, v, hadv', hus⟩
      rw [hadv] at hadv'
      cases hadv'
      rw [ih hus]

end ReaderState

/-! ## Tokens that look alike -/

/-- Tokens that are the same, or are both numerals of which the first is too large. -/
inductive Token.Alike : Token → Token → Prop where
  | refl (t : Token) : Alike t t
  | numerals {digits : String} (digits' : String) : literalNumber? digits = none →
      Alike (.number digits) (.number digits')

/-- Of two tokens that look alike, both or neither are the same sign. -/
theorem Token.Alike.eq_iff {t t₁ t₂ : Token} (h : Token.Alike t₁ t₂)
    (ht : ∀ digits, t ≠ .number digits) : t₁ = t ↔ t₂ = t := by
  cases h with
  | refl => rfl
  | numerals digits' hnone =>
    exact ⟨fun heq => absurd heq.symm (ht _), fun heq => absurd heq.symm (ht _)⟩

/-- Where the same tokens are ahead, the first ones are alike. -/
theorem ReaderState.Consumes.alike {s s' u u' : ReaderState} {ts : List Token}
    (h : Consumes s ts u) (h' : Consumes s' ts u')
    (halike : Token.Alike u.current.token u'.current.token) :
    Token.Alike s.current.token s'.current.token := by
  cases ts with
  | nil =>
    obtain rfl := consumes_nil_iff.1 h
    obtain rfl := consumes_nil_iff.1 h'
    exact halike
  | cons t ts =>
    rw [(consumes_cons_iff.1 h).1, (consumes_cons_iff.1 h').1]
    exact .refl t

namespace Reader

variable {α β : Type}

/-! ## Sequences -/

/-- From the state `s` the reader `r` moves over some tokens, and from every state with the same
tokens ahead and a like one behind them `r'` comes to the same result, or to none as well.  It
may make a difference that a numeral is too large. -/
structure LocalAt (s : ReaderState) (r r' : Reader α) : Prop where
  ok : ∀ {a u}, r.run s = .ok a u → (∃ ts, Consumes s ts u) ∧
    ∀ {ts s' u'}, Consumes s ts u → Consumes s' ts u' →
      Token.Alike u.current.token u'.current.token → r'.run s' = .ok a u'
  error : ∀ {e u}, r.run s = .error e u → (∃ ts, Meets s ts e u) ∧
    ∀ {p fault ts s' u'}, e = .grammatical ⟨p, fault⟩ → Consumes s ts u → Consumes s' ts u' →
      Token.Alike u.current.token u'.current.token →
      (∃ digits, fault = .numberOutOfRange digits) ∨ ∃ e' w, r'.run s' = .error e' w

/-- A reader depends only on what it moves over, from all states with less than `n` tokens left. -/
def Local (n : Nat) (r r' : Reader α) : Prop :=
  ∀ ⦃s⦄, s.left < n → LocalAt s r r'

/-- A result that is given on the current token alone. -/
theorem LocalAt.pure_of {s : ReaderState} {a : α} {r' : Reader α}
    (h : ∀ {s'}, Token.Alike s.current.token s'.current.token → r'.run s' = .ok a s') :
    LocalAt s (Pure.pure a) r' := by
  constructor
  · intro b u hrun
    cases hrun
    refine ⟨⟨[], .nil _⟩, fun hts hts' halike => ?_⟩
    obtain rfl := Consumes.unique hts (.nil _)
    obtain rfl := consumes_nil_iff.1 hts'
    exact h halike
  · intro e u hrun
    cases hrun

/-- A result depends on nothing. -/
theorem LocalAt.pure (s : ReaderState) (a : α) : LocalAt s (Pure.pure a) (Pure.pure a) :=
  .pure_of fun _ => rfl

/-- A token that is not expected is refused wherever a like one stands. -/
theorem LocalAt.unexpected (s : ReaderState) (expected expected' : Expected) :
    LocalAt s (Reader.unexpected expected : Reader α) (Reader.unexpected expected') := by
  constructor
  · intro a u h
    cases h
  · intro e u h
    cases h
    exact ⟨⟨[], .refused (.nil _) rfl⟩, fun _ _ _ _ => .inr ⟨_, _, rfl⟩⟩

/-- A numeral that is too large makes a difference. -/
theorem LocalAt.outOfRange {s : ReaderState} {digits : String}
    (htok : s.current.token = .number digits) (hnone : literalNumber? digits = none)
    (r' : Reader α) : LocalAt s (refuse (.numberOutOfRange digits)) r' := by
  constructor
  · intro a u h
    cases h
  · intro e u h
    cases h
    refine ⟨⟨[], .refused (.nil _) ⟨htok, hnone⟩⟩, fun he _ _ _ => .inl ⟨digits, ?_⟩⟩
    injection he with he
    exact (congrArg SyntaxError.fault he).symm

/-- The next token is not drawn only where the stream has a fault. -/
theorem lexical_of_advance {s u : ReaderState} {e : ParseError}
    (h : Reader.advance.run s = .error e u) :
    ∃ err, e = .lexical err ∧ s.stream.next.1 = .error err := by
  unfold Reader.advance at h
  simp only [EStateM.run] at h
  split at h
  · cases h
  · rename_i err later hnext
    cases h
    exact ⟨err, rfl, by rw [hnext]⟩

/-- Drawing the next token depends on the current one. -/
theorem LocalAt.advance {s : ReaderState} (hne : s.current.token ≠ .endOfInput) :
    LocalAt s Reader.advance Reader.advance := by
  constructor
  · intro a u h
    have htoken : Consumes s [s.current.token] u := consumes_singleton_iff.2 ⟨rfl, hne, h⟩
    refine ⟨⟨_, htoken⟩, fun hts hts' _ => ?_⟩
    rw [hts.unique htoken] at hts'
    exact (consumes_singleton_iff.1 hts').2.2
  · intro e u h
    obtain ⟨err, rfl, -⟩ := lexical_of_advance h
    exact ⟨⟨_, .faulty (.nil _) hne h⟩, fun he => by cases he⟩

/-- A sequence depends only on what it moves over if both of its parts do. -/
theorem LocalAt.bind {s : ReaderState} {r r' : Reader α} {f f' : α → Reader β}
    (hr : LocalAt s r r')
    (hf : ∀ {a u ts}, r.run s = .ok a u → Consumes s ts u → LocalAt u (f a) (f' a)) :
    LocalAt s (r >>= f) (r' >>= f') := by
  constructor
  · intro b w h
    rcases run_bind_eq_ok_iff.1 h with ⟨a, v, ha, hb⟩
    rcases hr.ok ha with ⟨⟨ts, hts⟩, hsame⟩
    rcases (hf ha hts).ok hb with ⟨⟨us, hus⟩, hsame'⟩
    refine ⟨⟨_, hts.append hus⟩, fun hall hall' halike => ?_⟩
    obtain rfl := hall.unique (hts.append hus)
    rcases consumes_append_iff.1 hall' with ⟨v', hts', hus'⟩
    have hmiddle := hus.alike hus' halike
    exact run_bind_eq_ok_iff.2 ⟨a, v', hsame hts hts' hmiddle, hsame' hus hus' halike⟩
  · intro e w h
    rcases run_bind_eq_error_iff.1 h with he | ⟨a, v, ha, he⟩
    · rcases hr.error he with ⟨⟨ts, hts⟩, hsame⟩
      refine ⟨⟨ts, hts⟩, fun heq hall hall' halike => ?_⟩
      refine (hsame heq hall hall' halike).imp_right fun ⟨e', w', he'⟩ => ?_
      exact ⟨e', w', run_bind_eq_error_iff.2 (.inl he')⟩
    · rcases hr.ok ha with ⟨⟨ts, hts⟩, hsame⟩
      rcases (hf ha hts).error he with ⟨⟨us, hus⟩, hsame'⟩
      refine ⟨⟨_, hts.meets hus⟩, fun heq hall hall' halike => ?_⟩
      subst heq
      obtain rfl := hall.unique (hts.append hus.consumes)
      rcases consumes_append_iff.1 hall' with ⟨v', hts', hus'⟩
      have hmiddle := hus.consumes.alike hus' halike
      have ha' := hsame hts hts' hmiddle
      refine (hsame' rfl hus.consumes hus' halike).imp_right fun ⟨e', w', he'⟩ => ?_
      exact ⟨e', w', run_bind_eq_error_iff.2 (.inr ⟨a, v', ha', he'⟩)⟩

/-- Looking at the current token depends on this one. -/
theorem LocalAt.peek {s : ReaderState} {f f' : Token → Reader α}
    (h : ∀ {t'}, Token.Alike s.current.token t' → LocalAt s (f s.current.token) (f' t')) :
    LocalAt s (Reader.peek >>= f) (Reader.peek >>= f') := by
  have hhere := h (.refl _)
  constructor
  · intro a u hrun
    refine ⟨(hhere.ok hrun).1, fun hts hts' halike => ?_⟩
    exact ((h (hts.alike hts' halike)).ok hrun).2 hts hts' halike
  · intro e u hrun
    refine ⟨(hhere.error hrun).1, fun heq hts hts' halike => ?_⟩
    exact ((h (hts.alike hts' halike)).error hrun).2 heq hts hts' halike

/-- Drawing the next token and going on there, with a token less. -/
theorem LocalAt.advance_bind {s : ReaderState} {f f' : Unit → Reader α}
    (hne : s.current.token ≠ .endOfInput)
    (hf : ∀ {u}, u.left < s.left → LocalAt u (f ()) (f' ())) :
    LocalAt s (Reader.advance >>= f) (Reader.advance >>= f') :=
  (LocalAt.advance hne).bind fun ha _ => hf (left_lt_of_advance hne ha)

/-! ## Primitive readers -/

/-- An optional token. -/
theorem LocalAt.eat {t : Token} (hne : t ≠ .endOfInput) (ht : ∀ digits, t ≠ .number digits)
    (s : ReaderState) : LocalAt s (Reader.eat t) (Reader.eat t) := by
  unfold Reader.eat
  refine .peek fun {t'} halike => ?_
  by_cases htok : s.current.token = t
  · rw [if_pos htok, if_pos ((halike.eq_iff ht).1 htok)]
    exact .advance_bind (by rwa [htok]) fun _ => .pure _ _
  · rw [if_neg htok, if_neg (mt (halike.eq_iff ht).2 htok)]
    exact .pure _ _

/-- A token that must be there. -/
theorem LocalAt.expect {t : Token} (hne : t ≠ .endOfInput) (ht : ∀ digits, t ≠ .number digits)
    (s : ReaderState) : LocalAt s (Reader.expect t) (Reader.expect t) := by
  unfold Reader.expect
  refine (LocalAt.eat hne ht s).bind fun {found _ _} _ _ => ?_
  cases found with
  | true => exact .pure _ _
  | false => exact .unexpected _ _ _

/-- Numbers.  Here it makes a difference that a numeral is too large. -/
theorem LocalAt.numberLiteral (s : ReaderState) :
    LocalAt s Reader.numberLiteral Reader.numberLiteral := by
  unfold Reader.numberLiteral
  refine .peek fun {t} halike => ?_
  generalize htok : s.current.token = t₀ at halike
  cases halike with
  | numerals digits' hnone =>
    simp only [hnone]
    exact .outOfRange htok hnone _
  | refl =>
    cases t with
    | number digits =>
      dsimp only
      cases hvalue : literalNumber? digits with
      | some n => exact .advance_bind (by simp [htok]) fun _ => .pure _ _
      | none => exact .outOfRange htok hvalue _
    | _ => exact .unexpected _ _ _

/-- Names. -/
theorem LocalAt.identifier (s : ReaderState) : LocalAt s Reader.identifier Reader.identifier := by
  unfold Reader.identifier
  refine .peek fun {t} halike => ?_
  generalize htok : s.current.token = t₀ at halike
  cases halike with
  | numerals digits' hnone => exact .unexpected _ _ _
  | refl =>
    cases t with
    | identifier spelling => exact .advance_bind (by simp [htok]) fun _ => .pure _ _
    | _ => exact .unexpected _ _ _

/-- Relations. -/
theorem LocalAt.relation (s : ReaderState) : LocalAt s Reader.relation Reader.relation := by
  unfold Reader.relation
  refine .peek fun {t} halike => ?_
  generalize htok : s.current.token = t₀ at halike
  cases halike with
  | numerals digits' hnone => exact .unexpected _ _ _
  | refl =>
    cases hop : t.relop? with
    | some op =>
      have hne := (Token.relop?_eq_some_iff.1 hop).ne_endOfInput
      exact .advance_bind (by rwa [htok]) fun _ => .pure _ _
    | none => exact .unexpected _ _ _

/-! ## Expressions -/

/-- Operands depend only on what is moved over if what stands in parentheses does. -/
theorem local_factor {nested nested' : Reader Expr} {n : Nat} (hnested : Local n nested nested') :
    Local (n + 1) (factor nested) (factor nested') := by
  intro s hs
  unfold factor
  refine .peek fun {t} halike => ?_
  generalize htok : s.current.token = t₀ at halike
  have hnumber : LocalAt s (do return Expr.number (← numberLiteral))
      (do return Expr.number (← numberLiteral)) :=
    (LocalAt.numberLiteral s).bind fun _ _ => .pure _ _
  cases halike with
  | numerals digits' hnone => exact hnumber
  | refl =>
    cases t with
    | identifier spelling => exact (LocalAt.identifier s).bind fun _ _ => .pure _ _
    | number digits => exact hnumber
    | leftParen =>
      refine .advance_bind (by simp [htok]) fun hlt => ?_
      refine (hnested (by omega)).bind fun _ _ => ?_
      exact (LocalAt.expect (by simp) (by simp) _).bind fun _ _ => .pure _ _
    | _ => exact .unexpected _ _ _

/-- Chains depend only on what is moved over if their operands do. -/
theorem local_leftAssoc {op? : Token → Option ArithOp} (hend : op? .endOfInput = none)
    (hnumber : ∀ digits, op? (.number digits) = none) {operand operand' : Reader Expr} {n : Nat}
    (hoperand : Local n operand operand') (extra bound : Nat) (lhs : Expr) {s : ReaderState}
    (hs : s.left < n) (hbound : s.left ≤ bound) :
    LocalAt s (leftAssoc op? operand bound lhs)
      (leftAssoc op? operand' (bound + extra) lhs) := by
  have hop {t t' : Token} (halike : Token.Alike t t') : op? t' = op? t := by
    cases halike with
    | refl => rfl
    | numerals digits' hnone => rw [hnumber, hnumber]
  induction bound generalizing s lhs with
  | zero =>
    have hover : s.current.token = .endOfInput := left_eq_zero_iff.1 (by omega)
    exact .pure_of fun halike => run_leftAssoc_of_none (by rw [hop halike, hover, hend])
  | succ bound ih =>
    rw [Nat.add_right_comm]
    unfold leftAssoc
    refine .peek fun {t} halike => ?_
    rw [hop halike]
    cases hfound : op? s.current.token with
    | some op =>
      refine .advance_bind (by rintro heq; simp [heq, hend] at hfound) fun hlt => ?_
      refine (hoperand (by omega)).bind fun _ hts => ?_
      have hle := hts.length_add_left_le
      exact ih _ (by omega) (by omega)
    | none => exact .pure _ _

/-- Products depend only on what is moved over if what stands in parentheses does. -/
theorem local_term {nested nested' : Reader Expr} {n bound : Nat}
    (hnested : Local n nested nested') (hbound : n ≤ bound) (extra : Nat) :
    Local (n + 1) (term nested bound) (term nested' (bound + extra)) := by
  intro s hs
  refine (local_factor hnested hs).bind fun _ hts => ?_
  have hle := hts.length_add_left_le
  exact local_leftAssoc rfl (fun _ => rfl) (local_factor hnested) extra bound _ (by omega)
    (by omega)

/-- Sums depend only on what is moved over if what stands in parentheses does. -/
theorem local_sum {nested nested' : Reader Expr} {n bound : Nat}
    (hnested : Local n nested nested') (hbound : n ≤ bound) (extra : Nat) :
    Local (n + 1) (sum nested bound) (sum nested' (bound + extra)) := by
  intro s hs
  refine (LocalAt.eat (by simp) (by simp) s).bind fun _ hps => ?_
  refine (LocalAt.eat (by simp) (by simp) _).bind fun _ hms => ?_
  have hps_le := hps.length_add_left_le
  have hms_le := hms.length_add_left_le
  refine (local_term hnested hbound extra (by omega)).bind fun _ hts => ?_
  have hts_le := hts.length_add_left_le
  exact local_leftAssoc rfl (fun _ => rfl) (local_term hnested hbound extra) extra bound _
    (by omega) (by omega)

/-- Expressions depend only on what is moved over. -/
theorem local_exprWithin (extra bound : Nat) :
    Local bound (exprWithin bound) (exprWithin (bound + extra)) := by
  induction bound with
  | zero => exact fun _ hs => absurd hs (Nat.not_lt_zero _)
  | succ bound ih =>
    rw [Nat.add_right_comm]
    have hsum := local_sum ih (show bound ≤ bound + 1 by omega) extra
    rwa [Nat.add_right_comm] at hsum

/-- Items depend only on what is moved over. -/
theorem local_itemWithin (extra bound : Nat) :
    Local bound (itemWithin bound) (itemWithin (bound + extra)) := by
  intro s hs
  unfold itemWithin
  refine .peek fun {t} halike => ?_
  generalize htok : s.current.token = t₀ at halike
  have hexpr := local_exprWithin extra bound hs
  cases halike with
  | numerals digits' hnone => exact hexpr
  | refl =>
    cases t with
    | text content => exact .advance_bind (by simp [htok]) fun _ => .pure _ _
    | _ => exact hexpr

/-! ## Lists -/

/-- What stands behind commas depends only on what is moved over if each element does. -/
theorem local_afterCommas {element element' : Reader α} {n : Nat}
    (helement : Local n element element') (extra bound : Nat) {s : ReaderState} (hs : s.left < n)
    (hbound : s.left ≤ bound) :
    LocalAt s (afterCommas element bound) (afterCommas element' (bound + extra)) := by
  induction bound generalizing s with
  | zero =>
    have hover : s.current.token = .endOfInput := left_eq_zero_iff.1 (by omega)
    refine .pure_of fun halike => run_afterCommas_of_ne fun hcomma => ?_
    rw [hover, hcomma] at halike
    cases halike
  | succ bound ih =>
    rw [Nat.add_right_comm]
    refine (LocalAt.eat (by simp) (by simp) s).bind fun {found _ _} hfound hts => ?_
    cases found with
    | true =>
      have hcomma := ((run_eat_eq_true_iff (by simp)).1 hfound).length_add_left_le
      rw [List.length_singleton] at hcomma
      refine (helement (by omega)).bind fun _ hus => ?_
      have hle := hus.length_add_left_le
      exact (ih (by omega) (by omega)).bind fun _ _ => .pure _ _
    | false => exact .pure _ _

/-- Lists depend only on what is moved over if each element does. -/
theorem local_commaList {element element' : Reader α} {n bound : Nat}
    (helement : Local n element element') (hbound : n ≤ bound + 1) (extra : Nat) :
    Local n (commaList element bound) (commaList element' (bound + extra)) := by
  intro s hs
  refine (helement hs).bind fun _ hts => ?_
  have hle := hts.length_add_left_le
  exact (local_afterCommas helement extra bound (by omega) (by omega)).bind fun _ _ => .pure _ _

/-! ## Statements -/

/-- The statement that the current keyword opens depends only on what is moved over if a
statement inside it does. -/
theorem local_statementOf {nested nested' : Reader Stmt} {n bound : Nat} (extra : Nat)
    (hnested : Local n nested nested') (hbound : n ≤ bound) {s : ReaderState} (hs : s.left ≤ n)
    {k : Keyword} (htok : s.current.token = .keyword k) :
    LocalAt s (statementOf nested bound k) (statementOf nested' (bound + extra) k) := by
  have hne : s.current.token ≠ .endOfInput := by simp [htok]
  have hnames (type : DeclaredType) :
      LocalAt s (declaration type bound) (declaration type (bound + extra)) := by
    refine .advance_bind hne fun hlt => ?_
    have hlist : Local bound (commaList identifier bound) _ :=
      local_commaList (fun s _ => LocalAt.identifier s) (Nat.le_succ bound) extra
    exact (hlist (by omega)).bind fun _ _ => .pure _ _
  cases k with
  | integer => exact hnames .integer
  | string => exact hnames .string
  | assign =>
    refine .advance_bind hne fun hlt => ?_
    refine (LocalAt.identifier _).bind fun _ hts => ?_
    refine (LocalAt.expect (by simp) (by simp) _).bind fun _ hus => ?_
    have hts_le := hts.length_add_left_le
    have hus_le := hus.length_add_left_le
    exact (local_itemWithin extra bound (by omega)).bind fun _ _ => .pure _ _
  | input => exact .advance_bind hne fun _ => (LocalAt.identifier _).bind fun _ _ => .pure _ _
  | print =>
    refine .advance_bind hne fun hlt => ?_
    have hlist := local_commaList (local_itemWithin extra bound) (Nat.le_succ bound) extra
    exact (hlist (by omega)).bind fun _ _ => .pure _ _
  | test =>
    refine .advance_bind hne fun hlt => ?_
    refine (local_exprWithin extra bound (by omega)).bind fun _ hl => ?_
    refine (LocalAt.relation _).bind fun _ ht => ?_
    have hl_le := hl.length_add_left_le
    have ht_le := ht.length_add_left_le
    refine (local_exprWithin extra bound (by omega)).bind fun _ hr => ?_
    refine (LocalAt.expect (by simp) (by simp) _).bind fun _ hthen => ?_
    have hr_le := hr.length_add_left_le
    have hthen_le := hthen.length_add_left_le
    exact (hnested (by omega)).bind fun _ _ => .pure _ _
  | goto => exact .advance_bind hne fun _ => (LocalAt.numberLiteral _).bind fun _ _ => .pure _ _
  | gosub => exact .advance_bind hne fun _ => (LocalAt.numberLiteral _).bind fun _ _ => .pure _ _
  | ret => exact .advance_bind hne fun _ => .pure _ _
  | stop => exact .advance_bind hne fun _ => .pure _ _
  | consequent => exact .unexpected _ _ _

/-- Statements depend only on what is moved over. -/
theorem local_statementWithin (extra bound : Nat) :
    Local bound (statementWithin bound) (statementWithin (bound + extra)) := by
  induction bound with
  | zero => exact fun _ hs => absurd hs (Nat.not_lt_zero _)
  | succ bound ih =>
    intro s hs
    rw [Nat.add_right_comm]
    unfold statementWithin
    refine .peek fun {t} halike => ?_
    generalize htok : s.current.token = t₀ at halike
    cases halike with
    | numerals digits' hnone => exact .unexpected _ _ _
    | refl =>
      cases t with
      | keyword k =>
        have hstmt := local_statementOf extra ih (show bound ≤ bound + 1 by omega) (by omega) htok
        rwa [Nat.add_right_comm] at hstmt
      | _ => exact .unexpected _ _ _

/-! ## Lines -/

/-- What stands between two line breaks depends only on what is moved over. -/
theorem local_lineWithin? (extra bound : Nat) :
    Local (bound + 1) (lineWithin? bound) (lineWithin? (bound + extra)) := by
  intro s hs
  have hline :
      LocalAt s (do return [← lineWithin bound]) (do return [← lineWithin (bound + extra)]) := by
    refine LocalAt.bind ?_ fun _ _ => .pure _ _
    refine (LocalAt.numberLiteral s).bind fun hn _ => ?_
    rcases run_numberLiteral_eq_ok_iff.1 hn with ⟨digits, -, hdigits⟩
    have hlt := hdigits.length_add_left_le
    rw [List.length_singleton] at hlt
    exact (local_statementWithin extra bound (by omega)).bind fun _ _ => .pure _ _
  unfold lineWithin?
  refine .peek fun {t} halike => ?_
  generalize s.current.token = t₀ at halike
  cases halike with
  | numerals digits' hnone => exact hline
  | refl =>
    cases t with
    | number digits => exact hline
    | _ => exact .pure _ _

/-- Programs depend only on what is moved over. -/
theorem local_linesWithin (extra bound : Nat) :
    Local (bound + 1) (linesWithin bound) (linesWithin (bound + extra)) := by
  induction bound with
  | zero =>
    intro s hs
    have hover : s.current.token = .endOfInput := left_eq_zero_iff.1 (by omega)
    refine .pure_of fun halike => run_linesWithin_of_end ?_
    rw [hover] at halike
    exact (halike.eq_iff (by simp)).1 rfl
  | succ bound ih =>
    intro s hs
    rw [Nat.add_right_comm]
    unfold linesWithin
    refine .peek fun {t} halike => ?_
    by_cases hend : s.current.token = .endOfInput
    · rw [if_pos hend, if_pos ((halike.eq_iff (by simp)).1 hend)]
      exact .pure _ _
    · rw [if_neg hend, if_neg (mt (halike.eq_iff (by simp)).2 hend), ← Nat.add_right_comm]
      refine (local_lineWithin? extra (bound + 1) (by omega)).bind fun {here u _} _ hts => ?_
      refine .peek fun {t} halike => ?_
      by_cases hend : u.current.token = .endOfInput
      · rw [if_pos hend, if_pos ((halike.eq_iff (by simp)).1 hend)]
        exact .pure _ _
      · rw [if_neg hend, if_neg (mt (halike.eq_iff (by simp)).2 hend)]
        refine (LocalAt.expect (by simp) (by simp) u).bind fun hbreak _ => ?_
        have hbreak_le := ((run_expect_eq_ok_iff (by simp)).1 hbreak).length_add_left_le
        have hts_le := hts.length_add_left_le
        rw [List.length_singleton] at hbreak_le
        exact (ih (by omega)).bind fun _ _ => .pure _ _

end Reader

end LineBasic
