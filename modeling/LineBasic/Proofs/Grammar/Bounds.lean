import LineBasic.Proofs.Grammar.Soundness

/-!
# Bounds make no difference

Readers are given a bound that each nesting and each further element lowers.  A bound that is not
below the number of tokens left is never met: each round accepts a token first.  So a larger bound
makes no difference, and a reader does what the rules of the grammar would without any.

Main definition:

- `Reader.Agree`: readers that do the same in all states with few tokens left.

Main results:

- `Reader.agree_exprWithin`, `Reader.agree_itemsWithin`, `Reader.agree_statementWithin` and
  `Reader.agree_linesWithin`: readers with larger bounds.
-/

namespace LineBasic

open Grammar ReaderState

namespace Reader

variable {α β : Type}

/-! ## Readers that do the same -/

/-- In all states with at most `n` tokens left, two readers do the same. -/
def Agree (n : Nat) (r r' : Reader α) : Prop :=
  ∀ ⦃s⦄, s.left ≤ n → r.run s = r'.run s

/-- Sequences do the same if their first parts do and their second parts do from there. -/
theorem run_bind_congr {s : ReaderState} {r r' : Reader α} {f f' : α → Reader β}
    (hr : r.run s = r'.run s) (hf : ∀ a u, r.run s = .ok a u → (f a).run u = (f' a).run u) :
    (r >>= f).run s = (r' >>= f').run s := by
  rw [EStateM.run_bind, EStateM.run_bind, ← hr]
  cases hrun : r.run s with
  | ok a u => exact hf a u hrun
  | error e u => rfl

/-- Sequences with the same first part do the same if their second parts do from there. -/
theorem run_bind_congr_right {s : ReaderState} {r : Reader α} {f f' : α → Reader β}
    (hf : ∀ a u, r.run s = .ok a u → (f a).run u = (f' a).run u) :
    (r >>= f).run s = (r >>= f').run s :=
  run_bind_congr rfl hf

/-- Looking at the current token, readers do the same if they do for this token. -/
theorem run_peek_bind_congr {s : ReaderState} {f f' : Token → Reader β}
    (hf : (f s.current.token).run s = (f' s.current.token).run s) :
    (peek >>= f).run s = (peek >>= f').run s :=
  run_bind_congr_right fun _ _ hpeek => by
    cases hpeek
    exact hf

/-- Behind a token there is one token less left. -/
theorem run_advance_bind_congr {s : ReaderState} {f f' : Unit → Reader β}
    (hne : s.current.token ≠ .endOfInput)
    (hf : ∀ u, u.left < s.left → (f ()).run u = (f' ()).run u) :
    (advance >>= f).run s = (advance >>= f').run s :=
  run_bind_congr_right fun _ u hadv => hf u (left_lt_of_advance hne hadv)

/-- What a rule allows leaves no more tokens. -/
theorem Reads.left_le {r : Reader α} {rule : List Token → α → Prop} (h : Reads r rule)
    {s u : ReaderState} {a : α} (hrun : r.run s = .ok a u) : u.left ≤ s.left := by
  rcases h hrun with ⟨ts, -, hts⟩
  exact Nat.le_trans (Nat.le_add_left _ _) hts.length_add_left_le

/-- Optional tokens leave no more tokens. -/
theorem left_le_of_eat {t : Token} (ht : t ≠ .endOfInput) {s u : ReaderState} {found : Bool}
    (h : (eat t).run s = .ok found u) : u.left ≤ s.left := by
  rcases reads_eat ht h with ⟨ts, -, hts⟩
  exact Nat.le_trans (Nat.le_add_left _ _) hts.length_add_left_le

/-- Tokens that must be there leave fewer tokens. -/
theorem left_lt_of_expect {t : Token} (ht : t ≠ .endOfInput) {s u : ReaderState}
    (h : (expect t).run s = .ok () u) : u.left < s.left := by
  have hle := ((run_expect_eq_ok_iff ht).1 h).length_add_left_le
  rw [List.length_singleton] at hle
  omega

/-! ## Expressions -/

/-- Operands agree if what stands in parentheses does, with a token less. -/
theorem agree_factor {nested nested' : Reader Expr} {n : Nat} (h : Agree n nested nested') :
    Agree (n + 1) (factor nested) (factor nested') := by
  intro s hs
  refine run_peek_bind_congr ?_
  cases htok : s.current.token with
  | leftParen =>
    refine run_advance_bind_congr (by simp [htok]) fun u hu => ?_
    exact run_bind_congr (h (by omega)) fun _ _ _ => rfl
  | _ => rfl

/-- Chains agree if their operands do. -/
theorem agree_leftAssoc {op? : Token → Option ArithOp} (hend : op? .endOfInput = none)
    {operand operand' : Reader Expr} {rule : List Token → Expr → Prop}
    (hreads : Reads operand rule) {n : Nat} (h : Agree n operand operand') (extra bound : Nat)
    (lhs : Expr) {s : ReaderState} (hs : s.left ≤ n) (hbound : s.left ≤ bound) :
    (leftAssoc op? operand bound lhs).run s =
      (leftAssoc op? operand' (bound + extra) lhs).run s := by
  induction bound generalizing s lhs with
  | zero =>
    have hover : s.current.token = .endOfInput := left_eq_zero_iff.1 (by omega)
    rw [run_leftAssoc_of_none (by rw [hover, hend]), run_leftAssoc_of_none (by rw [hover, hend])]
  | succ bound ih =>
    rw [Nat.add_right_comm]
    refine run_peek_bind_congr ?_
    cases hop : op? s.current.token with
    | none => rfl
    | some op =>
      have hne : s.current.token ≠ .endOfInput := by
        intro hover
        rw [hover, hend] at hop
        cases hop
      refine run_advance_bind_congr hne fun u hu => ?_
      refine run_bind_congr (h (by omega)) fun e v he => ?_
      have hv := hreads.left_le he
      exact ih _ (by omega) (by omega)

/-- Products agree if what stands in parentheses does, with a token less. -/
theorem agree_term {nested nested' : Reader Expr} (hreads : Reads nested Sum) {n bound : Nat}
    (h : Agree n nested nested') (hbound : n + 1 ≤ bound) (extra : Nat) :
    Agree (n + 1) (term nested bound) (term nested' (bound + extra)) := by
  intro s hs
  refine run_bind_congr (agree_factor h hs) fun e u he => ?_
  have hu := (reads_factor hreads).left_le he
  exact agree_leftAssoc rfl (reads_factor hreads) (agree_factor h) extra bound e (by omega)
    (by omega)

/-- Sums agree if what stands in parentheses does, with a token less. -/
theorem agree_sum {nested nested' : Reader Expr} (hreads : Reads nested Sum) {n bound : Nat}
    (h : Agree n nested nested') (hbound : n + 1 ≤ bound) (extra : Nat) :
    Agree (n + 1) (sum nested bound) (sum nested' (bound + extra)) := by
  intro s hs
  refine run_bind_congr_right fun _ u hplus => ?_
  have hu := left_le_of_eat (by simp) hplus
  refine run_bind_congr_right fun negative v hminus => ?_
  have hv := left_le_of_eat (by simp) hminus
  refine run_bind_congr (agree_term hreads h hbound extra (by omega)) fun e w he => ?_
  have hw := (reads_term hreads bound).left_le he
  exact agree_leftAssoc rfl (reads_term hreads bound) (agree_term hreads h hbound extra) extra
    bound _ (by omega) (by omega)

/-- No expression begins at the end of the text, whatever the bound is. -/
theorem run_exprWithin_of_end {s : ReaderState} (h : s.current.token = .endOfInput) (bound : Nat) :
    (exprWithin bound).run s = (unexpected .operand : Reader Expr).run s := by
  cases bound with
  | zero => rfl
  | succ bound =>
    have hnone (t : Token) (ht : t ≠ .endOfInput) : (eat t).run s = .ok false s :=
      run_eat_eq_false_iff.2 ⟨by rw [h]; exact ht.symm, rfl⟩
    have hoperand : (factor (exprWithin bound)).run s =
        (unexpected .operand : Reader Expr).run s := by
      unfold factor
      rw [EStateM.run_bind, run_peek]
      dsimp only
      rw [h]
    simp only [exprWithin, sum, term, EStateM.run_bind, hnone .plus (by simp),
      hnone .minus (by simp), hoperand]
    rfl

/-- A larger bound makes no difference to expressions. -/
theorem agree_exprWithin (extra bound : Nat) :
    Agree bound (exprWithin bound) (exprWithin (bound + extra)) := by
  induction bound with
  | zero =>
    intro s hs
    have hover : s.current.token = .endOfInput := left_eq_zero_iff.1 (by omega)
    rw [run_exprWithin_of_end hover, run_exprWithin_of_end hover]
  | succ bound ih =>
    rw [Nat.add_right_comm]
    have hsum := agree_sum (reads_exprWithin bound) ih (Nat.le_refl _) extra
    rwa [Nat.add_right_comm] at hsum

/-- A larger bound makes no difference to items. -/
theorem agree_itemWithin (extra bound : Nat) :
    Agree bound (itemWithin bound) (itemWithin (bound + extra)) := by
  intro s hs
  refine run_peek_bind_congr ?_
  cases s.current.token with
  | text content => rfl
  | _ => exact agree_exprWithin extra bound hs

/-! ## Lists -/

/-- What stands behind commas agrees if each element does. -/
theorem agree_afterCommas {element element' : Reader α} {rule : List Token → α → Prop}
    (hreads : Reads element rule) {n : Nat} (h : Agree n element element') (extra bound : Nat)
    {s : ReaderState} (hs : s.left ≤ n) (hbound : s.left ≤ bound) :
    (afterCommas element bound).run s = (afterCommas element' (bound + extra)).run s := by
  induction bound generalizing s with
  | zero =>
    have hover : s.current.token = .endOfInput := left_eq_zero_iff.1 (by omega)
    rw [run_afterCommas_of_ne (by simp [hover]), run_afterCommas_of_ne (by simp [hover])]
  | succ bound ih =>
    rw [Nat.add_right_comm]
    refine run_bind_congr_right fun found u heat => ?_
    cases found with
    | false => rfl
    | true =>
      have hu := ((run_eat_eq_true_iff (by simp)).1 heat).length_add_left_le
      rw [List.length_singleton] at hu
      refine run_bind_congr (h (by omega)) fun a v ha => ?_
      have hv := hreads.left_le ha
      exact run_bind_congr (ih (by omega) (by omega)) fun _ _ _ => rfl

/-- Lists agree if each element does. -/
theorem agree_commaList {element element' : Reader α} {rule : List Token → α → Prop}
    (hreads : Reads element rule) {n bound : Nat} (h : Agree n element element')
    (hbound : n ≤ bound) (extra : Nat) :
    Agree n (commaList element bound) (commaList element' (bound + extra)) := by
  intro s hs
  refine run_bind_congr (h hs) fun a u ha => ?_
  have hu := hreads.left_le ha
  exact run_bind_congr (agree_afterCommas hreads h extra bound (by omega) (by omega))
    fun _ _ _ => rfl

/-- A larger bound makes no difference to lists of items. -/
theorem agree_itemsWithin (extra bound : Nat) :
    Agree bound (itemsWithin bound) (itemsWithin (bound + extra)) :=
  agree_commaList (reads_itemWithin bound) (agree_itemWithin extra bound) (Nat.le_refl _) extra

/-! ## Statements -/

/-- The statement that the current keyword opens agrees if a statement inside it does, with a token
less. -/
theorem agree_statementOf {nested nested' : Reader Stmt} {n bound : Nat} (extra : Nat)
    (h : Agree n nested nested') (hbound : n ≤ bound) {s : ReaderState} (hs : s.left ≤ n + 1)
    {k : Keyword} (htok : s.current.token = .keyword k) :
    (statementOf nested bound k).run s = (statementOf nested' (bound + extra) k).run s := by
  have hne : s.current.token ≠ .endOfInput := by simp [htok]
  have hnames (type : DeclaredType) :
      (declaration type bound).run s = (declaration type (bound + extra)).run s := by
    refine run_advance_bind_congr hne fun u hu => ?_
    have hlist : Agree bound (commaList identifier bound) _ :=
      agree_commaList reads_identifier (fun _ _ => rfl) (Nat.le_refl _) extra
    exact run_bind_congr (hlist (by omega)) fun _ _ _ => rfl
  cases k with
  | integer => exact hnames .integer
  | string => exact hnames .string
  | assign =>
    refine run_advance_bind_congr hne fun u hu => ?_
    refine run_bind_congr_right fun x v hx => ?_
    have hv := reads_identifier.left_le hx
    refine run_bind_congr_right fun _ w hbecomes => ?_
    have hw := left_lt_of_expect (by simp) hbecomes
    exact run_bind_congr (agree_itemWithin extra bound (by omega)) fun _ _ _ => rfl
  | print =>
    refine run_advance_bind_congr hne fun u hu => ?_
    exact run_bind_congr (agree_itemsWithin extra bound (by omega)) fun _ _ _ => rfl
  | test =>
    refine run_advance_bind_congr hne fun u hu => ?_
    refine run_bind_congr (agree_exprWithin extra bound (by omega)) fun l v hl => ?_
    have hv := (reads_exprWithin bound).left_le hl
    refine run_bind_congr_right fun op w hop => ?_
    rcases reads_relation hop with ⟨t, -, ht⟩
    have hw := ht.length_add_left_le
    refine run_bind_congr (agree_exprWithin extra bound (by omega)) fun r x hr => ?_
    have hx := (reads_exprWithin bound).left_le hr
    refine run_bind_congr_right fun _ y hthen => ?_
    have hy := left_lt_of_expect (by simp) hthen
    exact run_bind_congr (h (by omega)) fun _ _ _ => rfl
  | input | goto | gosub | ret | stop | consequent => rfl

/-- A larger bound makes no difference to statements. -/
theorem agree_statementWithin (extra bound : Nat) :
    Agree bound (statementWithin bound) (statementWithin (bound + extra)) := by
  induction bound with
  | zero =>
    intro s hs
    have hover : s.current.token = .endOfInput := left_eq_zero_iff.1 (by omega)
    rw [Nat.zero_add]
    cases extra with
    | zero => rfl
    | succ extra =>
      rw [statementWithin, statementWithin, EStateM.run_bind, run_peek]
      dsimp only
      rw [hover]
  | succ bound ih =>
    intro s hs
    rw [Nat.add_right_comm]
    refine run_peek_bind_congr ?_
    cases htok : s.current.token with
    | keyword k =>
      have hstmt := agree_statementOf extra ih (Nat.le_add_right bound 1) hs htok
      rwa [Nat.add_right_comm] at hstmt
    | _ => rfl

/-! ## Lines -/

/-- A larger bound makes no difference to what stands between two line breaks. -/
theorem agree_lineWithin? (extra bound : Nat) :
    Agree bound (lineWithin? bound) (lineWithin? (bound + extra)) := by
  intro s hs
  refine run_peek_bind_congr ?_
  cases s.current.token with
  | number digits =>
    refine run_bind_congr ?_ fun _ _ _ => rfl
    refine run_bind_congr_right fun n u hn => ?_
    rcases run_numberLiteral_eq_ok_iff.1 hn with ⟨_, -, hdigits⟩
    have hu := hdigits.length_add_left_le
    exact run_bind_congr (agree_statementWithin extra bound (by omega)) fun _ _ _ => rfl
  | _ => rfl

/-- A larger bound makes no difference to lines. -/
theorem agree_linesWithin (extra bound : Nat) :
    Agree bound (linesWithin bound) (linesWithin (bound + extra)) := by
  induction bound with
  | zero =>
    intro s hs
    have hover : s.current.token = .endOfInput := left_eq_zero_iff.1 (by omega)
    rw [run_linesWithin_of_end hover, run_linesWithin_of_end hover]
  | succ bound ih =>
    intro s hs
    rw [Nat.add_right_comm]
    refine run_peek_bind_congr ?_
    split
    · rfl
    · rw [← Nat.add_right_comm]
      refine run_bind_congr (agree_lineWithin? extra (bound + 1) hs) fun here u hhere => ?_
      have hu := (reads_lineWithin? (bound + 1)).left_le hhere
      refine run_peek_bind_congr ?_
      split
      · rfl
      · refine run_bind_congr_right fun _ v hbreak => ?_
        have hv := left_lt_of_expect (by simp) hbreak
        exact run_bind_congr (ih (by omega)) fun _ _ _ => rfl

end Reader

end LineBasic
