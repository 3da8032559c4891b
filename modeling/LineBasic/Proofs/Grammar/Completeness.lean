import LineBasic.Proofs.Grammar.Soundness

/-!
# Readers accept whatever the grammar allows

A reader that can move over tokens which a rule of the grammar allows does move over exactly
these, and gives their tree, provided that the token behind them is one at which the reader
stops.  The proviso is needed because chains and lists are read as far as they go.

Main definitions:

- `Token.EndsTerm`, `Token.EndsSum`, `Token.EndsList`: the tokens at which readers stop.
- `Reader.Accepts`: a reader gives whatever a rule allows, up to a number of tokens.

Main results:

- `Reader.accepts_exprWithin`, `Reader.accepts_itemsWithin`, `Reader.accepts_statementWithin`:
  the readers of expressions, items and statements.
- `Reader.accepts_linesWithin`: the lines of a program.
-/

namespace LineBasic

open Grammar ReaderState

/-! ## The ends of rules -/

namespace Token

/-- Whether a factor can begin with a token. -/
def opensFactor : Token → Bool
  | identifier _ => true
  | number _ => true
  | leftParen => true
  | _ => false

/-- Whether a sum can begin with a token. -/
def opensSum : Token → Bool
  | plus => true
  | minus => true
  | t => t.opensFactor

/-- No further factor follows. -/
def EndsTerm (t : Token) : Prop :=
  t.multiplicative? = none

/-- Neither a further factor nor a further term follows. -/
def EndsSum (t : Token) : Prop :=
  t.EndsTerm ∧ t.additive? = none

/-- Neither a further operand nor a further element follows. -/
def EndsList (t : Token) : Prop :=
  t.EndsSum ∧ t ≠ .comma

end Token

namespace Grammar

/-- A factor begins with a token that factors can begin with. -/
theorem Factor.exists_head {ts : List Token} {e : Expr} (h : Factor ts e) :
    ∃ t us, ts = t :: us ∧ t.opensFactor := by
  cases h <;> exact ⟨_, _, rfl, rfl⟩

/-- So does a term. -/
theorem Term.exists_head {ts : List Token} {e : Expr} (h : Term ts e) :
    ∃ t us, ts = t :: us ∧ t.opensFactor := by
  cases h with
  | chain hfactor hops =>
    rcases hfactor.exists_head with ⟨t, us, rfl, ht⟩
    exact ⟨t, _, rfl, ht⟩

/-- A sum begins with a token that sums can begin with. -/
theorem Sum.exists_head {ts : List Token} {e : Expr} (h : Sum ts e) :
    ∃ t us, ts = t :: us ∧ t.opensSum := by
  cases h with
  | plain hopt hterm hops =>
    cases hopt with
    | present => exact ⟨_, _, rfl, rfl⟩
    | absent =>
      rcases hterm.exists_head with ⟨t, us, rfl, ht⟩
      refine ⟨t, _, rfl, ?_⟩
      cases t <;> first | rfl | cases ht
  | negated hopt hterm hops =>
    cases hopt <;> exact ⟨_, _, rfl, rfl⟩

/-- A statement begins with a keyword. -/
theorem Statement.exists_head {ts : List Token} {s : Stmt} (h : Statement ts s) :
    ∃ k us, ts = .keyword k :: us := by
  cases h <;> exact ⟨_, _, rfl⟩

/-- A chain has no more operations than tokens. -/
theorem Operands.length_le {sign : Token → ArithOp → Prop} {rule : List Token → Expr → Prop}
    {ts : List Token} {ops : List (ArithOp × Expr)} (h : Operands sign rule ts ops) :
    ops.length ≤ ts.length := by
  induction h with
  | nil => simp
  | cons hsign hrule hrest ih =>
    simp only [List.length_cons, List.length_append]
    omega

/-- A list has at most one element more than tokens. -/
theorem CommaList.length_le {α : Type} {rule : List Token → α → Prop} {ts : List Token}
    {as : List α} (h : CommaList rule ts as) : as.length ≤ ts.length + 1 := by
  induction h with
  | one hrule => simp
  | more hrule hrest ih =>
    simp only [List.length_cons, List.length_append]
    omega

end Grammar

namespace Reader

variable {α : Type}

/-- A reader gives the tree of at most `n` tokens that a rule allows, if the token behind them is
one at which the reader stops. -/
def Accepts (r : Reader α) (rule : List Token → α → Prop) (stops : Token → Prop) (n : Nat) :
    Prop :=
  ∀ ⦃s ts a u⦄, rule ts a → ts.length ≤ n → Consumes s ts u → stops u.current.token →
    r.run s = .ok a u

/-- What is accepted up to a number of tokens is accepted up to a smaller one. -/
theorem Accepts.mono {r : Reader α} {rule : List Token → α → Prop} {stops : Token → Prop}
    {m n : Nat} (h : Accepts r rule stops n) (hmn : m ≤ n) : Accepts r rule stops m :=
  fun _ _ _ _ hrule hlen hts hstop => h hrule (Nat.le_trans hlen hmn) hts hstop

/-- Where the tokens of a list are moved over, the first of them is the current one. -/
theorem current_eq_of_consumes {s u : ReaderState} {t : Token} {ts : List Token}
    (h : Consumes s (t :: ts) u) : s.current.token = t :=
  (consumes_cons_iff.1 h).1

/-- Moving over one token and then others. -/
theorem advance_of_consumes {s u : ReaderState} {t : Token} {ts : List Token}
    (h : Consumes s (t :: ts) u) :
    ∃ v, advance.run s = .ok () v ∧ Consumes v ts u :=
  (consumes_cons_iff.1 h).2.2

/-! ## Expressions -/

/-- Factors are accepted if the expressions in their parentheses are. -/
theorem accepts_factor {nested : Reader Expr} {n : Nat}
    (hnested : Accepts nested Sum Token.EndsSum n) :
    Accepts (factor nested) Factor (fun _ => True) (n + 2) := by
  intro s ts e u hrule hlen hts _
  unfold factor
  rw [EStateM.run_bind, run_peek]
  cases hrule with
  | name x =>
    rw [current_eq_of_consumes hts]
    exact run_bind_eq_ok_iff.2 ⟨_, u, run_identifier_eq_ok_iff.2 ⟨_, .mk x, hts⟩, rfl⟩
  | number hnum =>
    rw [current_eq_of_consumes hts]
    exact run_bind_eq_ok_iff.2 ⟨_, u, run_numberLiteral_eq_ok_iff.2 ⟨_, hnum, hts⟩, rfl⟩
  | parens hsum =>
    rw [current_eq_of_consumes hts]
    rcases advance_of_consumes hts with ⟨v, hadv, hts⟩
    rcases consumes_append_iff.1 hts with ⟨w, hinner, hclose⟩
    have hend : Token.EndsSum w.current.token := by
      rw [current_eq_of_consumes hclose]
      exact ⟨rfl, rfl⟩
    simp only [List.length_append, List.length_cons, List.length_nil] at hlen
    have he := hnested hsum (by omega) hinner hend
    have hparen := (run_expect_eq_ok_iff (t := .rightParen) (by simp)).2 hclose
    exact run_bind_eq_ok_iff.2 ⟨_, v, hadv, run_bind_eq_ok_iff.2 ⟨_, w, he,
      run_bind_eq_ok_iff.2 ⟨_, u, hparen, rfl⟩⟩⟩

/-- Where a chain goes on or ends, an operand before it stops. -/
theorem stops_of_operands {sign : Token → ArithOp → Prop} {rule : List Token → Expr → Prop}
    {stops : Token → Prop} (hsep : ∀ t op, sign t op → stops t) {s u : ReaderState}
    {ts : List Token} {ops : List (ArithOp × Expr)} (hops : Operands sign rule ts ops)
    (hts : Consumes s ts u) (hstop : stops u.current.token) : stops s.current.token := by
  cases hops with
  | nil =>
    rw [consumes_nil_iff] at hts
    rw [← hts]
    exact hstop
  | cons hsign hrule hrest =>
    rw [current_eq_of_consumes hts]
    exact hsep _ _ hsign

/-- Chains are accepted if their operands are. -/
theorem run_leftAssoc {op? : Token → Option ArithOp} {sign : Token → ArithOp → Prop}
    (hsign : ∀ t op, sign t op → op? t = some op) {operand : Reader Expr}
    {rule : List Token → Expr → Prop} {stops : Token → Prop} {n : Nat}
    (hoperand : Accepts operand rule stops n) (hsep : ∀ t op, sign t op → stops t)
    {ts : List Token} {ops : List (ArithOp × Expr)} (hops : Operands sign rule ts ops)
    {bound : Nat} {lhs : Expr} {s u : ReaderState} (hbound : ops.length ≤ bound)
    (hlen : ts.length ≤ n) (hts : Consumes s ts u) (hstop : stops u.current.token)
    (hend : op? u.current.token = none) :
    (leftAssoc op? operand bound lhs).run s = .ok (groupLeft lhs ops) u := by
  induction hops generalizing bound lhs s with
  | nil =>
    rw [consumes_nil_iff] at hts
    subst hts
    exact run_leftAssoc_of_none hend
  | @cons t op us e vs ops hop hrule hrest ih =>
    cases bound with
    | zero => simp at hbound
    | succ bound =>
      have htok := current_eq_of_consumes hts
      rcases advance_of_consumes hts with ⟨v, hadv, hts⟩
      rcases consumes_append_iff.1 hts with ⟨w, hus, hvs⟩
      simp only [List.length_append, List.length_cons] at hlen hbound
      have hw := stops_of_operands hsep hrest hvs hstop
      have he := hoperand hrule (by omega) hus hw
      have hmore : (leftAssoc op? operand bound (.binary op lhs e)).run w =
          .ok (groupLeft (.binary op lhs e) ops) u := ih (by omega) (by omega) hvs
      unfold leftAssoc
      rw [EStateM.run_bind, run_peek]
      dsimp only
      rw [htok, hsign _ _ hop]
      exact run_bind_eq_ok_iff.2 ⟨_, v, hadv, run_bind_eq_ok_iff.2 ⟨_, w, he, hmore⟩⟩

/-- Terms are accepted if the expressions in their parentheses are. -/
theorem accepts_term {nested : Reader Expr} {n bound : Nat}
    (hnested : Accepts nested Sum Token.EndsSum n) (hbound : n + 2 ≤ bound + 1) :
    Accepts (term nested bound) Term Token.EndsTerm (n + 1) := by
  intro s ts e u hrule hlen hts hend
  cases hrule with
  | @chain ts first us ops hfactor hops =>
    have hfactors := (accepts_factor hnested).mono (Nat.le_succ (n + 1))
    rcases consumes_append_iff.1 hts with ⟨v, hfirst, hus⟩
    rw [List.length_append] at hlen
    have hhead := hfactors hfactor (by omega) hfirst trivial
    have hlength := hops.length_le
    have hops_le : ops.length ≤ bound := by omega
    have hus_le : us.length ≤ n + 1 := by omega
    have hsign : ∀ t op, MulSign t op → t.multiplicative? = some op :=
      fun _ _ => Token.multiplicative?_eq_some_iff.2
    exact run_bind_eq_ok_iff.2 ⟨first, v, hhead, run_leftAssoc hsign hfactors
      (fun _ _ _ => trivial) hops hops_le hus_le hus trivial hend⟩

/-- An optional token is accepted if no second one follows. -/
theorem run_eat_of_optional {t : Token} (ht : t ≠ .endOfInput) {s u : ReaderState}
    {ts : List Token} (hopt : Optional t ts) (hts : Consumes s ts u)
    (hend : u.current.token ≠ t) : ∃ found, (eat t).run s = .ok found u := by
  cases hopt with
  | absent =>
    rw [consumes_nil_iff] at hts
    subst hts
    exact ⟨false, run_eat_eq_false_iff.2 ⟨hend, rfl⟩⟩
  | present => exact ⟨true, (run_eat_eq_true_iff ht).2 hts⟩

/-- Behind its signs, a sum is accepted if the expressions in parentheses are. -/
theorem run_unsigned {nested : Reader Expr} {n bound : Nat} (negative : Bool)
    (hnested : Accepts nested Sum Token.EndsSum n) (hbound : n + 2 ≤ bound + 1)
    {ts us : List Token} {first : Expr} {ops : List (ArithOp × Expr)} (hterm : Term ts first)
    (hops : Operands AddSign Term us ops) (hlen : (ts ++ us).length ≤ n + 1)
    {s u : ReaderState} (hts : Consumes s (ts ++ us) u)
    (hend : Token.EndsSum u.current.token) :
    (do
      let first ← term nested bound
      leftAssoc Token.additive? (term nested bound) bound (negate negative first)).run s =
      .ok (groupLeft (negate negative first) ops) u := by
  have hterms := accepts_term hnested hbound
  have hsign : ∀ t op, AddSign t op → t.additive? = some op :=
    fun _ _ => Token.additive?_eq_some_iff.2
  have hsep : ∀ t op, AddSign t op → Token.EndsTerm t := by
    intro t op h
    cases h <;> rfl
  rcases consumes_append_iff.1 hts with ⟨v, hfirst, hus⟩
  rw [List.length_append] at hlen
  have hlength := hops.length_le
  have hops_le : ops.length ≤ bound := by omega
  have hus_le : us.length ≤ n + 1 := by omega
  have hhead := hterms hterm (by omega) hfirst (stops_of_operands hsep hops hus hend.1)
  exact run_bind_eq_ok_iff.2 ⟨first, v, hhead,
    run_leftAssoc hsign hterms hsep hops hops_le hus_le hus hend.1 hend.2⟩

/-- Sums are accepted if the expressions in their parentheses are. -/
theorem accepts_sum {nested : Reader Expr} {n bound : Nat}
    (hnested : Accepts nested Sum Token.EndsSum n) (hbound : n + 2 ≤ bound + 1) :
    Accepts (sum nested bound) Sum Token.EndsSum (n + 1) := by
  intro s ts e u hrule hlen hts hend
  cases hrule with
  | plain hopt hterm hops =>
    rw [List.append_assoc, List.length_append] at hlen
    rw [List.append_assoc, consumes_append_iff] at hts
    rcases hts with ⟨v, hps, hts⟩
    have hhead : v.current.token.opensFactor := by
      rcases hterm.exists_head with ⟨t, us, rfl, ht⟩
      rw [current_eq_of_consumes hts]
      exact ht
    have hne_plus : v.current.token ≠ .plus := fun h => by simp [h, Token.opensFactor] at hhead
    have hne_minus : v.current.token ≠ .minus := fun h => by
      simp [h, Token.opensFactor] at hhead
    rcases run_eat_of_optional (by simp) hopt hps hne_plus with ⟨found, hplus⟩
    have hminus := run_eat_eq_false_iff.2 ⟨hne_minus, rfl⟩
    have htail := run_unsigned false hnested hbound hterm hops (by omega) hts hend
    exact run_bind_eq_ok_iff.2 ⟨_, v, hplus, run_bind_eq_ok_iff.2 ⟨_, v, hminus, htail⟩⟩
  | negated hopt hterm hops =>
    rw [List.append_assoc, List.length_append, List.cons_append, List.length_cons] at hlen
    rw [List.append_assoc, List.cons_append, consumes_append_iff] at hts
    rcases hts with ⟨v, hps, hts⟩
    have htok := current_eq_of_consumes hts
    rcases advance_of_consumes hts with ⟨w, hadv, hts⟩
    have hne_plus : v.current.token ≠ .plus := by simp [htok]
    rcases run_eat_of_optional (by simp) hopt hps hne_plus with ⟨found, hplus⟩
    have hminus := (run_eat_eq_true_iff (by simp)).2 (consumes_of_advance htok (by simp) hadv)
    have htail := run_unsigned true hnested hbound hterm hops (by omega) hts hend
    exact run_bind_eq_ok_iff.2 ⟨_, v, hplus, run_bind_eq_ok_iff.2 ⟨_, w, hminus, htail⟩⟩

/-- Expressions are accepted up to as many tokens as the bound allows. -/
theorem accepts_exprWithin (bound : Nat) :
    Accepts (exprWithin bound) Sum Token.EndsSum bound := by
  induction bound with
  | zero =>
    intro s ts e u hrule hlen
    rcases hrule.exists_head with ⟨t, us, rfl, -⟩
    simp at hlen
  | succ bound ih => exact accepts_sum ih (Nat.le_refl _)

/-- Items are accepted up to as many tokens as the bound allows. -/
theorem accepts_itemWithin (bound : Nat) :
    Accepts (itemWithin bound) Item Token.EndsSum bound := by
  intro s ts e u hrule hlen hts hend
  unfold itemWithin
  rw [EStateM.run_bind, run_peek]
  dsimp only
  cases hrule with
  | text content =>
    rw [current_eq_of_consumes hts]
    rcases advance_of_consumes hts with ⟨v, hadv, hts⟩
    rw [consumes_nil_iff] at hts
    subst hts
    exact run_bind_eq_ok_iff.2 ⟨_, u, hadv, rfl⟩
  | expr hsum =>
    have hexpr := accepts_exprWithin bound hsum hlen hts hend
    rcases hsum.exists_head with ⟨t, us, rfl, ht⟩
    rw [current_eq_of_consumes hts]
    cases t <;> first | exact hexpr | cases ht

/-! ## Lists -/

/-- Lists are accepted if their elements are. -/
theorem run_commaList {element : Reader α} {rule : List Token → α → Prop}
    {stops : Token → Prop} {n : Nat} (helement : Accepts element rule stops n)
    (hcomma : stops .comma) {ts : List Token} {as : List α} (hlist : CommaList rule ts as)
    {bound : Nat} {s u : ReaderState} (hbound : as.length ≤ bound + 1) (hlen : ts.length ≤ n)
    (hts : Consumes s ts u) (hstop : stops u.current.token) (hend : u.current.token ≠ .comma) :
    (commaList element bound).run s = .ok as u := by
  induction hlist generalizing bound s with
  | @one ts a hrule =>
    have ha := helement hrule hlen hts hstop
    have hrest : (afterCommas element bound).run u = .ok [] u := run_afterCommas_of_ne hend
    exact run_bind_eq_ok_iff.2 ⟨a, u, ha, run_bind_eq_ok_iff.2 ⟨[], u, hrest, rfl⟩⟩
  | @more ts a us as hrule hrest ih =>
    rcases consumes_append_iff.1 hts with ⟨v, hfirst, hts⟩
    have htok := current_eq_of_consumes hts
    rcases advance_of_consumes hts with ⟨w, hadv, hus⟩
    have heat := (run_eat_eq_true_iff (by simp)).2 (consumes_of_advance htok (by simp) hadv)
    simp only [List.length_append, List.length_cons] at hlen hbound
    have ha := helement hrule (by omega) hfirst (by rwa [htok])
    cases bound with
    | zero =>
      have hpos : 0 < as.length := by cases hrest <;> simp
      omega
    | succ bound =>
      have hmore : (commaList element bound).run w = .ok as u :=
        ih (by omega) (by omega) hus
      have hafter : (afterCommas element (bound + 1)).run v = .ok as u :=
        run_bind_eq_ok_iff.2 ⟨true, w, heat, hmore⟩
      exact run_bind_eq_ok_iff.2 ⟨a, v, ha, run_bind_eq_ok_iff.2 ⟨as, u, hafter, rfl⟩⟩

/-- Items with commas between them are accepted up to as many tokens as the bound allows. -/
theorem accepts_itemsWithin (bound : Nat) :
    Accepts (itemsWithin bound) (CommaList Item) Token.EndsList bound := by
  intro s ts es u hlist hlen hts hend
  have hcount := hlist.length_le
  exact run_commaList (accepts_itemWithin bound) ⟨rfl, rfl⟩ hlist (by omega) hlen hts hend.1
    hend.2

/-- Names with commas between them are accepted up to as many tokens as the bound allows. -/
theorem accepts_names (bound : Nat) :
    Accepts (commaList identifier bound) (CommaList Name) Token.EndsList bound := by
  intro s ts xs u hlist hlen hts hend
  have hname : Accepts identifier Name (fun _ => True) bound :=
    fun _ us _ _ hrule _ hus _ => run_identifier_eq_ok_iff.2 ⟨us, hrule, hus⟩
  have hcount := hlist.length_le
  exact run_commaList hname trivial hlist (by omega) hlen hts trivial hend.2

/-! ## Statements -/

/-- A relation is accepted. -/
theorem run_relation {s u : ReaderState} {t : Token} {op : Relop} (hsign : RelationSign t op)
    (ht : Consumes s [t] u) : relation.run s = .ok op u := by
  rcases consumes_singleton_iff.1 ht with ⟨htok, -, hadv⟩
  unfold relation
  rw [EStateM.run_bind, run_peek]
  dsimp only
  rw [htok, Token.relop?_eq_some_iff.2 hsign]
  exact run_bind_eq_ok_iff.2 ⟨(), u, hadv, rfl⟩

/-- A relation ends the sum before it. -/
theorem endsSum_of_relationSign {t : Token} {op : Relop} (h : RelationSign t op) :
    Token.EndsSum t := by
  cases h <;> exact ⟨rfl, rfl⟩

/-- Behind its keyword, a conditional statement is accepted if the statement inside it is. -/
theorem run_conditional {nested : Reader Stmt} {bound n : Nat}
    (hnested : Accepts nested Statement Token.EndsList n) (hbound : n < bound)
    {ts us vs : List Token} {t : Token} {l r : Expr} {op : Relop} {body : Stmt}
    (hl : Sum ts l) (hsign : RelationSign t op) (hr : Sum us r) (hbody : Statement vs body)
    {s v u : ReaderState} (hadv : advance.run s = .ok () v)
    (hlen : (ts ++ t :: us ++ .keyword .consequent :: vs).length ≤ n)
    (hts : Consumes v (ts ++ t :: us ++ .keyword .consequent :: vs) u)
    (hend : Token.EndsList u.current.token) :
    (conditional nested bound).run s = .ok (.cond l op r body) u := by
  have hparts : Consumes v (ts ++ ([t] ++ (us ++ ([.keyword .consequent] ++ vs)))) u := by
    simpa using hts
  rcases consumes_append_iff.1 hparts with ⟨v₁, hts, hparts⟩
  rcases consumes_append_iff.1 hparts with ⟨v₂, ht, hparts⟩
  rcases consumes_append_iff.1 hparts with ⟨v₃, hus, hparts⟩
  rcases consumes_append_iff.1 hparts with ⟨v₄, hthen, hvs⟩
  simp only [List.length_append, List.length_cons] at hlen
  have hend₁ : Token.EndsSum v₁.current.token := by
    rw [current_eq_of_consumes ht]
    exact endsSum_of_relationSign hsign
  have hend₃ : Token.EndsSum v₃.current.token := by
    rw [current_eq_of_consumes hthen]
    exact ⟨rfl, rfl⟩
  have hlhs := accepts_exprWithin bound hl (by omega) hts hend₁
  have hop := run_relation hsign ht
  have hrhs := accepts_exprWithin bound hr (by omega) hus hend₃
  have hthen := (run_expect_eq_ok_iff (t := .keyword .consequent) (by simp)).2 hthen
  have hstmt := hnested hbody (by omega) hvs hend
  exact run_bind_eq_ok_iff.2 ⟨(), v, hadv, run_bind_eq_ok_iff.2 ⟨l, v₁, hlhs,
    run_bind_eq_ok_iff.2 ⟨op, v₂, hop, run_bind_eq_ok_iff.2 ⟨r, v₃, hrhs,
      run_bind_eq_ok_iff.2 ⟨(), v₄, hthen, run_bind_eq_ok_iff.2 ⟨body, u, hstmt, rfl⟩⟩⟩⟩⟩⟩

/-- The statement that a keyword opens is accepted if the statement inside it is. -/
theorem run_statementOf {nested : Reader Stmt} {bound n : Nat}
    (hnested : Accepts nested Statement Token.EndsList n) (hbound : n < bound)
    {k : Keyword} {ts : List Token} {stmt : Stmt} {s u : ReaderState}
    (hrule : Statement (.keyword k :: ts) stmt) (hlen : ts.length ≤ n)
    (hts : Consumes s (.keyword k :: ts) u) (hend : Token.EndsList u.current.token) :
    (statementOf nested bound k).run s = .ok stmt u := by
  rcases advance_of_consumes hts with ⟨v, hadv, hrest⟩
  cases hrule with
  | integers hnames =>
    have hxs := accepts_names bound hnames (by omega) hrest hend
    exact run_bind_eq_ok_iff.2 ⟨(), v, hadv, run_bind_eq_ok_iff.2 ⟨_, u, hxs, rfl⟩⟩
  | strings hnames =>
    have hxs := accepts_names bound hnames (by omega) hrest hend
    exact run_bind_eq_ok_iff.2 ⟨(), v, hadv, run_bind_eq_ok_iff.2 ⟨_, u, hxs, rfl⟩⟩
  | @assign ts e x hitem =>
    have hparts : Consumes v ([.identifier x] ++ ([.becomes] ++ ts)) u := hrest
    rcases consumes_append_iff.1 hparts with ⟨w, hx, hparts⟩
    rcases consumes_append_iff.1 hparts with ⟨w', hbecomes, hvalue⟩
    simp only [List.length_cons] at hlen
    have hname := run_identifier_eq_ok_iff.2 ⟨_, .mk x, hx⟩
    have hbecomes := (run_expect_eq_ok_iff (t := .becomes) (by simp)).2 hbecomes
    have hvalue := accepts_itemWithin bound hitem (by omega) hvalue hend.1
    exact run_bind_eq_ok_iff.2 ⟨(), v, hadv, run_bind_eq_ok_iff.2 ⟨_, w, hname,
      run_bind_eq_ok_iff.2 ⟨(), w', hbecomes, run_bind_eq_ok_iff.2 ⟨_, u, hvalue, rfl⟩⟩⟩⟩
  | input x =>
    have hname := run_identifier_eq_ok_iff.2 ⟨_, .mk x, hrest⟩
    exact run_bind_eq_ok_iff.2 ⟨(), v, hadv, run_bind_eq_ok_iff.2 ⟨_, u, hname, rfl⟩⟩
  | print hitems =>
    have hes := accepts_itemsWithin bound hitems (by omega) hrest hend
    exact run_bind_eq_ok_iff.2 ⟨(), v, hadv, run_bind_eq_ok_iff.2 ⟨_, u, hes, rfl⟩⟩
  | cond hl hsign hr hbody =>
    exact run_conditional hnested hbound hl hsign hr hbody hadv hlen hrest hend
  | goto hnum =>
    have hn := run_numberLiteral_eq_ok_iff.2 ⟨_, hnum, hrest⟩
    exact run_bind_eq_ok_iff.2 ⟨(), v, hadv, run_bind_eq_ok_iff.2 ⟨_, u, hn, rfl⟩⟩
  | gosub hnum =>
    have hn := run_numberLiteral_eq_ok_iff.2 ⟨_, hnum, hrest⟩
    exact run_bind_eq_ok_iff.2 ⟨(), v, hadv, run_bind_eq_ok_iff.2 ⟨_, u, hn, rfl⟩⟩
  | ret =>
    obtain rfl := consumes_nil_iff.1 hrest
    exact run_bind_eq_ok_iff.2 ⟨(), u, hadv, rfl⟩
  | stop =>
    obtain rfl := consumes_nil_iff.1 hrest
    exact run_bind_eq_ok_iff.2 ⟨(), u, hadv, rfl⟩

/-- Statements are accepted up to as many tokens as the bound allows. -/
theorem accepts_statementWithin (bound : Nat) :
    Accepts (statementWithin bound) Statement Token.EndsList bound := by
  induction bound with
  | zero =>
    intro s ts stmt u hrule hlen
    rcases hrule.exists_head with ⟨k, us, rfl⟩
    simp at hlen
  | succ bound ih =>
    intro s ts stmt u hrule hlen hts hend
    rcases hrule.exists_head with ⟨k, us, rfl⟩
    unfold statementWithin
    rw [EStateM.run_bind, run_peek]
    dsimp only
    rw [current_eq_of_consumes hts]
    rw [List.length_cons] at hlen
    exact run_statementOf ih (Nat.lt_succ_self bound) hrule (by omega) hts hend

/-! ## Lines -/

/-- What stands between two line breaks is accepted if it is a line. -/
theorem run_lineWithin? {bound : Nat} {digits : String} {n : Int16} {ts : List Token}
    {stmt : Stmt} (hnum : IsNumber digits n) (hrule : Statement ts stmt)
    (hlen : ts.length ≤ bound) {s u : ReaderState}
    (hts : Consumes s (.number digits :: ts) u) (hend : Token.EndsList u.current.token) :
    (lineWithin? bound).run s = .ok [⟨n, stmt⟩] u := by
  have htok := current_eq_of_consumes hts
  have hparts : Consumes s ([.number digits] ++ ts) u := hts
  rcases consumes_append_iff.1 hparts with ⟨v, hdigits, hstmt⟩
  have hn := run_numberLiteral_eq_ok_iff.2 ⟨_, hnum, hdigits⟩
  have hstmt := accepts_statementWithin bound hrule hlen hstmt hend
  have hline : (lineWithin bound).run s = .ok ⟨n, stmt⟩ u :=
    run_bind_eq_ok_iff.2 ⟨n, v, hn, run_bind_eq_ok_iff.2 ⟨stmt, u, hstmt, rfl⟩⟩
  unfold lineWithin?
  rw [EStateM.run_bind, run_peek]
  dsimp only
  rw [htok]
  exact run_bind_eq_ok_iff.2 ⟨_, u, hline, rfl⟩

/-- Where no number is next, no line is read. -/
theorem run_lineWithin?_blank {bound : Nat} {s : ReaderState}
    (htok : s.current.token = .lineBreak) : (lineWithin? bound).run s = .ok [] s := by
  unfold lineWithin?
  rw [EStateM.run_bind, run_peek]
  dsimp only
  rw [htok]
  rfl

/-- The reading of lines one after the other, at a token that does not end the text. -/
theorem run_linesWithin_succ {bound : Nat} {s v u : ReaderState} {here lines : List Line}
    (hne : s.current.token ≠ .endOfInput) (hhere : (lineWithin? (bound + 1)).run s = .ok here v)
    (hrest : (if v.current.token = .endOfInput then pure here else do
        expect .lineBreak
        let rest ← linesWithin bound
        return here ++ rest : Reader (List Line)).run v = .ok lines u) :
    (linesWithin (bound + 1)).run s = .ok lines u := by
  unfold linesWithin
  rw [EStateM.run_bind, run_peek]
  dsimp only
  rw [if_neg hne]
  refine run_bind_eq_ok_iff.2 ⟨here, v, hhere, ?_⟩
  rw [EStateM.run_bind, run_peek]
  exact hrest

/-- Lines are accepted up to the end of the text and as many tokens as the bound allows. -/
theorem accepts_linesWithin (bound : Nat) :
    Accepts (linesWithin bound) Lines (· = .endOfInput) bound := by
  intro s ts lines u hlines hlen hts hend
  induction hlines generalizing bound s with
  | last hline =>
    cases hline with
    | blank =>
      obtain rfl := consumes_nil_iff.1 hts
      exact run_linesWithin_of_end hend
    | @line digits n ts stmt hnum hrule =>
      cases bound with
      | zero => simp at hlen
      | succ bound =>
        have htok := current_eq_of_consumes hts
        have hstop : Token.EndsList u.current.token := by
          rw [hend]
          exact ⟨⟨rfl, rfl⟩, by simp⟩
        rw [List.length_cons] at hlen
        have hts_le : ts.length ≤ bound + 1 := by omega
        have hhere := run_lineWithin? hnum hrule hts_le hts hstop
        refine run_linesWithin_succ (by simp [htok]) hhere ?_
        rw [if_pos hend]
        rfl
  | @next ts here us rest hline hrest ih =>
    cases bound with
    | zero => simp at hlen
    | succ bound =>
      have hparts : Consumes s (ts ++ ([.lineBreak] ++ us)) u := hts
      rcases consumes_append_iff.1 hparts with ⟨v, hts, hparts⟩
      rcases consumes_append_iff.1 hparts with ⟨w, hbreak, hus⟩
      have htok := current_eq_of_consumes hbreak
      have hexpect := (run_expect_eq_ok_iff (t := .lineBreak) (by simp)).2 hbreak
      simp only [List.length_append, List.length_cons] at hlen
      have hmore := ih bound (by omega) hus
      have hbehind : (if v.current.token = .endOfInput then pure here else do
          expect .lineBreak
          let rest ← linesWithin bound
          return here ++ rest : Reader (List Line)).run v = .ok (here ++ rest) u := by
        rw [if_neg (by simp [htok])]
        exact run_bind_eq_ok_iff.2 ⟨(), w, hexpect, run_bind_eq_ok_iff.2 ⟨rest, u, hmore, rfl⟩⟩
      cases hline with
      | blank =>
        obtain rfl := consumes_nil_iff.1 hts
        exact run_linesWithin_succ (by simp [htok]) (run_lineWithin?_blank htok) hbehind
      | @line digits n vs stmt hnum hrule =>
        have hstop : Token.EndsList v.current.token := by
          rw [htok]
          exact ⟨⟨rfl, rfl⟩, by simp⟩
        rw [List.length_cons] at hlen
        have hvs_le : vs.length ≤ bound + 1 := by omega
        have hhere := run_lineWithin? hnum hrule hvs_le hts hstop
        exact run_linesWithin_succ (by simp [current_eq_of_consumes hts]) hhere hbehind

end Reader

end LineBasic
