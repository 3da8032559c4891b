import LineBasic.Proofs.Grammar.Consumption

/-!
# Readers read by the grammar

Whatever a reader gives is the tree of exactly the tokens that it has moved over, by the rule of
the grammar that the reader stands for.  This holds on every stream, with faults ahead or not,
and from every token in the middle of a text.

Main definitions:

- `Reader.Reads`: a reader gives only what a rule allows.

Main results:

- `Reader.reads_exprWithin`, `Reader.reads_itemsWithin`, `Reader.reads_statementWithin`: the
  readers of expressions, items and statements.
- `Reader.reads_linesWithin`: the lines of a program, up to the end of the text.
-/

namespace LineBasic

open Grammar ReaderState

/-! ## Signs -/

/-- The signs between terms are those of the grammar. -/
theorem Token.additive?_eq_some_iff {t : Token} {op : ArithOp} :
    t.additive? = some op ↔ AddSign t op := by
  constructor
  · intro h
    unfold Token.additive? at h
    split at h <;> cases h <;> constructor
  · intro h
    cases h <;> rfl

/-- The signs between factors are those of the grammar. -/
theorem Token.multiplicative?_eq_some_iff {t : Token} {op : ArithOp} :
    t.multiplicative? = some op ↔ MulSign t op := by
  constructor
  · intro h
    unfold Token.multiplicative? at h
    split at h <;> cases h <;> constructor
  · intro h
    cases h <;> rfl

/-- A sign between terms is not the end of the text. -/
theorem Token.addSign_of_additive? {t : Token} {op : ArithOp} (h : t.additive? = some op) :
    AddSign t op ∧ t ≠ .endOfInput :=
  ⟨additive?_eq_some_iff.1 h, (additive?_eq_some_iff.1 h).ne_endOfInput⟩

/-- A sign between factors is not the end of the text. -/
theorem Token.mulSign_of_multiplicative? {t : Token} {op : ArithOp}
    (h : t.multiplicative? = some op) : MulSign t op ∧ t ≠ .endOfInput :=
  ⟨multiplicative?_eq_some_iff.1 h, (multiplicative?_eq_some_iff.1 h).ne_endOfInput⟩

/-- The relations of conditions are those of the grammar. -/
theorem Token.relop?_eq_some_iff {t : Token} {op : Relop} :
    t.relop? = some op ↔ RelationSign t op := by
  constructor
  · intro h
    unfold Token.relop? at h
    split at h <;> cases h <;> constructor
  · intro h
    cases h <;> rfl

namespace Reader

variable {α : Type}

/-- A reader gives only what a rule allows for the tokens that it moves over. -/
def Reads (r : Reader α) (rule : List Token → α → Prop) : Prop :=
  ∀ ⦃s a u⦄, r.run s = .ok a u → ∃ ts, rule ts a ∧ Consumes s ts u

/-- A token that is not the end of the text is moved over when the reader advances. -/
theorem consumes_of_advance {s u : ReaderState} {t : Token} (htok : s.current.token = t)
    (hne : t ≠ .endOfInput) (h : advance.run s = .ok () u) : Consumes s [t] u :=
  consumes_singleton_iff.2 ⟨htok, hne, h⟩

/-! ## Expressions -/

/-- Operands are read by the rule for factors. -/
theorem reads_factor {nested : Reader Expr} (hnested : Reads nested Sum) :
    Reads (factor nested) Factor := by
  intro s a u h
  unfold factor at h
  rw [EStateM.run_bind, run_peek] at h
  dsimp only at h
  split at h
  · rcases run_bind_eq_ok_iff.1 h with ⟨x, v, hx, hpure⟩
    cases hpure
    rcases run_identifier_eq_ok_iff.1 hx with ⟨ts, hname, hts⟩
    cases hname with
    | mk y => exact ⟨_, .name y, hts⟩
  · rcases run_bind_eq_ok_iff.1 h with ⟨n, v, hn, hpure⟩
    cases hpure
    rcases run_numberLiteral_eq_ok_iff.1 hn with ⟨digits, hnum, hts⟩
    exact ⟨_, .number hnum, hts⟩
  · rename_i htok
    rcases run_bind_eq_ok_iff.1 h with ⟨_, v, hadv, h⟩
    rcases run_bind_eq_ok_iff.1 h with ⟨e, w, he, h⟩
    rcases run_bind_eq_ok_iff.1 h with ⟨_, x, hclose, hpure⟩
    cases hpure
    rcases hnested he with ⟨ts, hsum, hts⟩
    have hopen := consumes_of_advance htok (by simp) hadv
    have hclose := (run_expect_eq_ok_iff (by simp)).1 hclose
    exact ⟨_, .parens hsum, (hopen.append hts).append hclose⟩
  · cases h

/-- A chain ends where no sign stands. -/
theorem run_leftAssoc_of_none {op? : Token → Option ArithOp} {operand : Reader Expr}
    {bound : Nat} {lhs : Expr} {s : ReaderState} (h : op? s.current.token = none) :
    (leftAssoc op? operand bound lhs).run s = .ok lhs s := by
  cases bound with
  | zero => rfl
  | succ bound =>
    unfold leftAssoc
    rw [EStateM.run_bind, run_peek]
    dsimp only
    rw [h]
    rfl

/-- Further operands are read by the rule for chains, and grouped to the left. -/
theorem reads_leftAssoc {op? : Token → Option ArithOp} {sign : Token → ArithOp → Prop}
    (hsign : ∀ {t op}, op? t = some op → sign t op ∧ t ≠ .endOfInput)
    {operand : Reader Expr} {rule : List Token → Expr → Prop} (hoperand : Reads operand rule)
    (bound : Nat) (lhs : Expr) {s u : ReaderState} {a : Expr}
    (h : (leftAssoc op? operand bound lhs).run s = .ok a u) :
    ∃ ts ops, Operands sign rule ts ops ∧ a = groupLeft lhs ops ∧ Consumes s ts u := by
  induction bound generalizing lhs s with
  | zero =>
    cases h
    exact ⟨[], [], .nil, rfl, .nil _⟩
  | succ bound ih =>
    unfold leftAssoc at h
    rw [EStateM.run_bind, run_peek] at h
    dsimp only at h
    split at h
    · rename_i op hop
      rcases run_bind_eq_ok_iff.1 h with ⟨_, v, hadv, h⟩
      rcases run_bind_eq_ok_iff.1 h with ⟨rhs, w, hrhs, h⟩
      rcases hoperand hrhs with ⟨ts, hrule, hts⟩
      rcases ih _ h with ⟨us, ops, hops, rfl, hus⟩
      have hfirst := consumes_of_advance rfl (hsign hop).2 hadv
      exact ⟨_, _, .cons (hsign hop).1 hrule hops, rfl, (hfirst.append hts).append hus⟩
    · cases h
      exact ⟨[], [], .nil, rfl, .nil _⟩

/-- Products are read by the rule for terms. -/
theorem reads_term {nested : Reader Expr} (hnested : Reads nested Sum) (bound : Nat) :
    Reads (term nested bound) Term := by
  intro s a u h
  unfold term at h
  rcases run_bind_eq_ok_iff.1 h with ⟨first, v, hfirst, h⟩
  rcases reads_factor hnested hfirst with ⟨ts, hfactor, hts⟩
  obtain ⟨us, ops, hops, rfl, hus⟩ :=
    reads_leftAssoc Token.mulSign_of_multiplicative? (reads_factor hnested) bound first h
  exact ⟨_, .chain hfactor hops, hts.append hus⟩

/-- An optional token is read by the rule for optional tokens. -/
theorem reads_eat {t : Token} (ht : t ≠ .endOfInput) {s u : ReaderState} {found : Bool}
    (h : (eat t).run s = .ok found u) : ∃ ts, Optional t ts ∧ Consumes s ts u := by
  cases found with
  | true => exact ⟨[t], .present, (run_eat_eq_true_iff ht).1 h⟩
  | false =>
    rcases run_eat_eq_false_iff.1 h with ⟨-, rfl⟩
    exact ⟨[], .absent, .nil _⟩

/-- Sums are read by the rule for sums. -/
theorem reads_sum {nested : Reader Expr} (hnested : Reads nested Sum) (bound : Nat) :
    Reads (sum nested bound) Sum := by
  intro s a u h
  unfold sum at h
  rcases run_bind_eq_ok_iff.1 h with ⟨_, v, hplus, h⟩
  rcases reads_eat (by simp) hplus with ⟨ps, hopt, hps⟩
  rcases run_bind_eq_ok_iff.1 h with ⟨negative, w, hminus, h⟩
  rcases run_bind_eq_ok_iff.1 h with ⟨first, x, hfirst, h⟩
  rcases reads_term hnested bound hfirst with ⟨ts, hterm, hts⟩
  obtain ⟨us, ops, hops, rfl, hus⟩ :=
    reads_leftAssoc Token.addSign_of_additive? (reads_term hnested bound) bound _ h
  cases negative with
  | true =>
    have hms := (run_eat_eq_true_iff (by simp)).1 hminus
    refine ⟨_, .negated hopt hterm hops, ?_⟩
    simpa using ((hps.append hms).append hts).append hus
  | false =>
    rcases run_eat_eq_false_iff.1 hminus with ⟨-, rfl⟩
    exact ⟨_, .plain hopt hterm hops, (hps.append hts).append hus⟩

/-- Expressions are read by the rule for sums. -/
theorem reads_exprWithin (bound : Nat) : Reads (exprWithin bound) Sum := by
  induction bound with
  | zero =>
    intro s a u h
    cases h
  | succ bound ih => exact reads_sum ih (bound + 1)

/-- Items are read by the rule for items. -/
theorem reads_itemWithin (bound : Nat) : Reads (itemWithin bound) Item := by
  intro s a u h
  unfold itemWithin at h
  rw [EStateM.run_bind, run_peek] at h
  dsimp only at h
  split at h
  · rename_i content htok
    rcases run_bind_eq_ok_iff.1 h with ⟨_, v, hadv, hpure⟩
    cases hpure
    exact ⟨_, .text content, consumes_of_advance htok (by simp) hadv⟩
  · rcases reads_exprWithin bound h with ⟨ts, hsum, hts⟩
    exact ⟨ts, .expr hsum, hts⟩

/-! ## Lists -/

/-- A list ends where no comma stands. -/
theorem run_afterCommas_of_ne {element : Reader α} {bound : Nat} {s : ReaderState}
    (h : s.current.token ≠ .comma) : (afterCommas element bound).run s = .ok [] s := by
  cases bound with
  | zero => rfl
  | succ bound =>
    have hnone := (run_eat_eq_false_iff (u := s)).2 ⟨h, rfl⟩
    exact run_bind_eq_ok_iff.2 ⟨false, s, hnone, rfl⟩

/-- What stands behind the commas of a list, and a first element, are a list. -/
theorem reads_afterCommas {element : Reader α} {rule : List Token → α → Prop}
    (helement : Reads element rule) (bound : Nat) {s u : ReaderState} {rest : List α}
    {ts : List Token} {a : α} (hfirst : rule ts a)
    (h : (afterCommas element bound).run s = .ok rest u) :
    ∃ us, CommaList rule (ts ++ us) (a :: rest) ∧ Consumes s us u := by
  induction bound generalizing s rest ts a with
  | zero =>
    cases h
    exact ⟨[], by simpa using .one hfirst, .nil _⟩
  | succ bound ih =>
    unfold afterCommas at h
    rcases run_bind_eq_ok_iff.1 h with ⟨found, v, heat, hfound⟩
    cases found with
    | true =>
      have hcomma := (run_eat_eq_true_iff (by simp)).1 heat
      rcases run_bind_eq_ok_iff.1 hfound with ⟨b, w, hb, hmore⟩
      rcases run_bind_eq_ok_iff.1 hmore with ⟨bs, x, hbs, hpure⟩
      cases hpure
      rcases helement hb with ⟨us, hrule, hus⟩
      rcases ih hrule hbs with ⟨vs, hlist, hvs⟩
      exact ⟨_, .more hfirst hlist, hcomma.append (hus.append hvs)⟩
    | false =>
      rcases run_eat_eq_false_iff.1 heat with ⟨-, rfl⟩
      cases hfound
      exact ⟨[], by simpa using .one hfirst, .nil _⟩

/-- Lists are read by the rule for lists. -/
theorem reads_commaList {element : Reader α} {rule : List Token → α → Prop}
    (helement : Reads element rule) (bound : Nat) :
    Reads (commaList element bound) (CommaList rule) := by
  intro s as u h
  unfold commaList at h
  rcases run_bind_eq_ok_iff.1 h with ⟨a, v, ha, h⟩
  rcases run_bind_eq_ok_iff.1 h with ⟨rest, w, hrest, hpure⟩
  cases hpure
  rcases helement ha with ⟨ts, hrule, hts⟩
  rcases reads_afterCommas helement bound hrule hrest with ⟨us, hlist, hus⟩
  exact ⟨_, hlist, hts.append hus⟩

/-- Items with commas between them are read by the rule for lists of items. -/
theorem reads_itemsWithin (bound : Nat) : Reads (itemsWithin bound) (CommaList Item) :=
  reads_commaList (reads_itemWithin bound) bound

/-- Names are read by the rule for names. -/
theorem reads_identifier : Reads identifier Name :=
  fun _ _ _ h => run_identifier_eq_ok_iff.1 h

/-! ## Statements -/

/-- A relation is read by the rule for relations. -/
theorem reads_relation {s u : ReaderState} {op : Relop} (h : relation.run s = .ok op u) :
    ∃ t, RelationSign t op ∧ Consumes s [t] u := by
  unfold relation at h
  rw [EStateM.run_bind, run_peek] at h
  dsimp only at h
  split at h
  · rename_i o hop
    rcases run_bind_eq_ok_iff.1 h with ⟨_, v, hadv, hpure⟩
    cases hpure
    have hsign := Token.relop?_eq_some_iff.1 hop
    exact ⟨s.current.token, hsign, consumes_of_advance rfl hsign.ne_endOfInput hadv⟩
  · cases h

/-- Conditional statements are read by the rule for statements. -/
theorem reads_conditional {nested : Reader Stmt} (hnested : Reads nested Statement)
    (bound : Nat) {s u : ReaderState} {a : Stmt} (htok : s.current.token = .keyword .test)
    (h : (conditional nested bound).run s = .ok a u) :
    ∃ ts, Statement ts a ∧ Consumes s ts u := by
  unfold conditional at h
  rcases run_bind_eq_ok_iff.1 h with ⟨_, v₀, hadv, h⟩
  rcases run_bind_eq_ok_iff.1 h with ⟨l, v₁, hl, h⟩
  rcases run_bind_eq_ok_iff.1 h with ⟨op, v₂, hop, h⟩
  rcases run_bind_eq_ok_iff.1 h with ⟨r, v₃, hr, h⟩
  rcases run_bind_eq_ok_iff.1 h with ⟨_, v₄, hthen, h⟩
  rcases run_bind_eq_ok_iff.1 h with ⟨body, v₅, hbody, hpure⟩
  cases hpure
  have hif := consumes_of_advance htok (by simp) hadv
  rcases reads_exprWithin bound hl with ⟨ts, hlsum, hts⟩
  rcases reads_relation hop with ⟨t, hsign, ht⟩
  rcases reads_exprWithin bound hr with ⟨us, hrsum, hus⟩
  have hthen := (run_expect_eq_ok_iff (by simp)).1 hthen
  rcases hnested hbody with ⟨vs, hstmt, hvs⟩
  refine ⟨_, .cond hlsum hsign hrsum hstmt, ?_⟩
  have hcondition := (hif.append hts).append (ht.append hus)
  simpa using hcondition.append (hthen.append hvs)

/-- The statement that the current keyword opens is read by the rule for statements. -/
theorem reads_statementOf {nested : Reader Stmt} (hnested : Reads nested Statement)
    (bound : Nat) {s u : ReaderState} {k : Keyword} {a : Stmt}
    (htok : s.current.token = .keyword k)
    (h : (statementOf nested bound k).run s = .ok a u) :
    ∃ ts, Statement ts a ∧ Consumes s ts u := by
  cases k with
  | integer =>
    rcases run_bind_eq_ok_iff.1 h with ⟨_, v, hadv, h⟩
    rcases run_bind_eq_ok_iff.1 h with ⟨xs, w, hxs, hpure⟩
    cases hpure
    rcases reads_commaList reads_identifier bound hxs with ⟨ts, hnames, hts⟩
    exact ⟨_, .integers hnames, (consumes_of_advance htok (by simp) hadv).append hts⟩
  | string =>
    rcases run_bind_eq_ok_iff.1 h with ⟨_, v, hadv, h⟩
    rcases run_bind_eq_ok_iff.1 h with ⟨xs, w, hxs, hpure⟩
    cases hpure
    rcases reads_commaList reads_identifier bound hxs with ⟨ts, hnames, hts⟩
    exact ⟨_, .strings hnames, (consumes_of_advance htok (by simp) hadv).append hts⟩
  | assign =>
    rcases run_bind_eq_ok_iff.1 h with ⟨_, v, hadv, h⟩
    rcases run_bind_eq_ok_iff.1 h with ⟨x, w, hx, h⟩
    rcases run_bind_eq_ok_iff.1 h with ⟨_, w', hbecomes, h⟩
    rcases run_bind_eq_ok_iff.1 h with ⟨e, w'', he, hpure⟩
    cases hpure
    have hlet := consumes_of_advance htok (by simp) hadv
    rcases run_identifier_eq_ok_iff.1 hx with ⟨ts, hname, hts⟩
    have hbecomes := (run_expect_eq_ok_iff (by simp)).1 hbecomes
    rcases reads_itemWithin bound he with ⟨us, hitem, hus⟩
    cases hname with
    | mk y => exact ⟨_, .assign y hitem, hlet.append (hts.append (hbecomes.append hus))⟩
  | input =>
    rcases run_bind_eq_ok_iff.1 h with ⟨_, v, hadv, h⟩
    rcases run_bind_eq_ok_iff.1 h with ⟨x, w, hx, hpure⟩
    cases hpure
    rcases run_identifier_eq_ok_iff.1 hx with ⟨ts, hname, hts⟩
    cases hname with
    | mk y => exact ⟨_, .input y, (consumes_of_advance htok (by simp) hadv).append hts⟩
  | print =>
    rcases run_bind_eq_ok_iff.1 h with ⟨_, v, hadv, h⟩
    rcases run_bind_eq_ok_iff.1 h with ⟨es, w, hes, hpure⟩
    cases hpure
    rcases reads_itemsWithin bound hes with ⟨ts, hitems, hts⟩
    exact ⟨_, .print hitems, (consumes_of_advance htok (by simp) hadv).append hts⟩
  | test => exact reads_conditional hnested bound htok h
  | goto =>
    rcases run_bind_eq_ok_iff.1 h with ⟨_, v, hadv, h⟩
    rcases run_bind_eq_ok_iff.1 h with ⟨n, w, hn, hpure⟩
    cases hpure
    rcases run_numberLiteral_eq_ok_iff.1 hn with ⟨digits, hnum, hts⟩
    exact ⟨_, .goto hnum, (consumes_of_advance htok (by simp) hadv).append hts⟩
  | gosub =>
    rcases run_bind_eq_ok_iff.1 h with ⟨_, v, hadv, h⟩
    rcases run_bind_eq_ok_iff.1 h with ⟨n, w, hn, hpure⟩
    cases hpure
    rcases run_numberLiteral_eq_ok_iff.1 hn with ⟨digits, hnum, hts⟩
    exact ⟨_, .gosub hnum, (consumes_of_advance htok (by simp) hadv).append hts⟩
  | ret =>
    rcases run_bind_eq_ok_iff.1 h with ⟨_, v, hadv, hpure⟩
    cases hpure
    exact ⟨_, .ret, consumes_of_advance htok (by simp) hadv⟩
  | stop =>
    rcases run_bind_eq_ok_iff.1 h with ⟨_, v, hadv, hpure⟩
    cases hpure
    exact ⟨_, .stop, consumes_of_advance htok (by simp) hadv⟩
  | consequent => cases h

/-- Statements are read by the rule for statements. -/
theorem reads_statementWithin (bound : Nat) : Reads (statementWithin bound) Statement := by
  induction bound with
  | zero =>
    intro s a u h
    cases h
  | succ bound ih =>
    intro s a u h
    unfold statementWithin at h
    rw [EStateM.run_bind, run_peek] at h
    dsimp only at h
    split at h
    · rename_i k htok
      exact reads_statementOf ih (bound + 1) htok h
    · cases h

/-! ## Lines -/

/-- What stands between two line breaks is read by the rule for that. -/
theorem reads_lineWithin? (bound : Nat) : Reads (lineWithin? bound) OptionalLine := by
  intro s a u h
  unfold lineWithin? at h
  rw [EStateM.run_bind, run_peek] at h
  dsimp only at h
  split at h
  · rcases run_bind_eq_ok_iff.1 h with ⟨line, v, hline, hpure⟩
    cases hpure
    unfold lineWithin at hline
    rcases run_bind_eq_ok_iff.1 hline with ⟨n, w, hn, hline⟩
    rcases run_bind_eq_ok_iff.1 hline with ⟨stmt, x, hstmt, hpure⟩
    cases hpure
    rcases run_numberLiteral_eq_ok_iff.1 hn with ⟨digits, hnum, hdigits⟩
    rcases reads_statementWithin bound hstmt with ⟨ts, hrule, hts⟩
    exact ⟨_, .line hnum hrule, hdigits.append hts⟩
  · cases h
    exact ⟨[], .blank, .nil _⟩

/-- The lines of a program end where the text does. -/
theorem run_linesWithin_of_end {bound : Nat} {s : ReaderState}
    (h : s.current.token = .endOfInput) : (linesWithin bound).run s = .ok [] s := by
  cases bound with
  | zero => rfl
  | succ bound =>
    unfold linesWithin
    rw [EStateM.run_bind, run_peek]
    dsimp only
    rw [if_pos h]
    rfl

/-- Lines are read by the rule for lines, and reading them ends where the text does. -/
theorem reads_linesWithin (bound : Nat) {s u : ReaderState} {lines : List Line}
    (hbound : s.left ≤ bound) (h : (linesWithin bound).run s = .ok lines u) :
    ∃ ts, Lines ts lines ∧ Consumes s ts u ∧ u.current.token = .endOfInput := by
  induction bound generalizing s lines with
  | zero =>
    cases h
    exact ⟨[], .last .blank, .nil _, left_eq_zero_iff.1 (by omega)⟩
  | succ bound ih =>
    unfold linesWithin at h
    rw [EStateM.run_bind, run_peek] at h
    dsimp only at h
    split at h
    · rename_i hend
      cases h
      exact ⟨[], .last .blank, .nil _, hend⟩
    · rcases run_bind_eq_ok_iff.1 h with ⟨here, v, hhere, hrest⟩
      rcases reads_lineWithin? (bound + 1) hhere with ⟨ts, hline, hts⟩
      rw [EStateM.run_bind, run_peek] at hrest
      dsimp only at hrest
      split at hrest
      · rename_i hend
        cases hrest
        exact ⟨ts, .last hline, hts, hend⟩
      · rcases run_bind_eq_ok_iff.1 hrest with ⟨_, w, hbreak, hrest⟩
        rcases run_bind_eq_ok_iff.1 hrest with ⟨rest, x, hrest, hpure⟩
        cases hpure
        have hbreak := (run_expect_eq_ok_iff (by simp)).1 hbreak
        -- the line break alone takes the rest of the text below the smaller bound
        have hleft := (hts.append hbreak).length_add_left_le
        rw [List.length_append, List.length_singleton] at hleft
        rcases ih (by omega) hrest with ⟨us, hlines, hus, hend⟩
        exact ⟨_, .next hline hlines, hts.append (hbreak.append hus), hend⟩

end Reader

end LineBasic
