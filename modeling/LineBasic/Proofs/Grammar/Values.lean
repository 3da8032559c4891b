import LineBasic.Proofs.Grammar.FirstFault
import LineBasic.Proofs.Machine.ExactArithmetic

/-!
# Values of expressions as they are written

The value of an expression can be read off its tokens: products bind more closely than sums, both
go from left to right, and a leading minus takes the negative of the whole first term.

    sum        ::= [ "+" ] term | [ "+" ] "-" term | sum "+" term | sum "-" term
    term       ::= factor | term "*" factor | term "/" factor
    factor     ::= IDENTIFIER | NUMBER | "(" sum ")"

The trees that readers build have the same values, although they are made without recursion on the
left and have no negative terms.

Main definitions:

- `FactorValue`, `TermValue` and `SumValue`: the values of tokens by these rules.

Main results:

- `Grammar.Sum.unique`: tokens are one expression at most.
- `Grammar.Sum.value_iff`: the value of an expression is that of its tokens.
- `arithmetic_is_exact`: what the machine makes of expressions, and of those that were read.
-/

namespace LineBasic

open Grammar Machine ReaderState

namespace Grammar

variable {val : String → Int} {ts : List Token} {e : Expr}

/-! ## The conventional values -/

mutual

/-- The values of names, numbers and parentheses. -/
inductive FactorValue (val : String → Int) : List Token → Int → Prop where
  | name (x : String) : FactorValue val [.identifier x] (val (upper x))
  | number {digits n} : IsNumber digits n → FactorValue val [.number digits] n.toInt
  | parens {ts z} : SumValue val ts z → FactorValue val (.leftParen :: ts ++ [.rightParen]) z

/-- The values of products and quotients, which cut off toward zero. -/
inductive TermValue (val : String → Int) : List Token → Int → Prop where
  | factor {ts z} : FactorValue val ts z → TermValue val ts z
  | times {ts y us z} : TermValue val ts y → FactorValue val us z →
      TermValue val (ts ++ .times :: us) (y * z)
  | divide {ts y us z} : TermValue val ts y → FactorValue val us z →
      TermValue val (ts ++ .divide :: us) (y.tdiv z)

/-- The values of sums and differences, and of terms with signs. -/
inductive SumValue (val : String → Int) : List Token → Int → Prop where
  | term {ps ts z} : Optional .plus ps → TermValue val ts z → SumValue val (ps ++ ts) z
  | negative {ps ts z} : Optional .plus ps → TermValue val ts z →
      SumValue val (ps ++ .minus :: ts) (-z)
  | plus {ts y us z} : SumValue val ts y → TermValue val us z →
      SumValue val (ts ++ .plus :: us) (y + z)
  | minus {ts y us z} : SumValue val ts y → TermValue val us z →
      SumValue val (ts ++ .minus :: us) (y - z)

end

/-! ## Trees with the same values -/

mutual

/-- Tokens with the value of a factor are a factor with this value. -/
theorem FactorValue.exists_factor {ts : List Token} {z : Int} (h : FactorValue val ts z) :
    ∃ e, Factor ts e ∧ e.exactValue val = z := by
  match h with
  | .name x => exact ⟨_, .name x, rfl⟩
  | .number hnum => exact ⟨_, .number hnum, rfl⟩
  | .parens hsum =>
    obtain ⟨e, he, hz⟩ := hsum.exists_sum
    exact ⟨e, .parens he, hz⟩

/-- Tokens with the value of a term are a term with this value. -/
theorem TermValue.exists_term {ts : List Token} {z : Int} (h : TermValue val ts z) :
    ∃ e, Term ts e ∧ e.exactValue val = z := by
  match h with
  | .factor hfactor =>
    obtain ⟨e, he, hz⟩ := hfactor.exists_factor
    exact ⟨e, he.term, hz⟩
  | .times hterm hfactor =>
    obtain ⟨l, hl, rfl⟩ := hterm.exists_term
    obtain ⟨r, hr, rfl⟩ := hfactor.exists_factor
    exact ⟨_, hl.snoc .times hr, rfl⟩
  | .divide hterm hfactor =>
    obtain ⟨l, hl, rfl⟩ := hterm.exists_term
    obtain ⟨r, hr, rfl⟩ := hfactor.exists_factor
    exact ⟨_, hl.snoc .divide hr, rfl⟩

/-- Tokens with the value of a sum are a sum with this value. -/
theorem SumValue.exists_sum {ts : List Token} {z : Int} (h : SumValue val ts z) :
    ∃ e, Sum ts e ∧ e.exactValue val = z := by
  match h with
  | .term hopt hterm =>
    obtain ⟨e, he, hz⟩ := hterm.exists_term
    have hsum := Sum.plain hopt he .nil
    rw [List.append_nil] at hsum
    exact ⟨e, hsum, hz⟩
  | .negative hopt hterm =>
    obtain ⟨e, he, rfl⟩ := hterm.exists_term
    have hsum := Sum.negated hopt he .nil
    rw [List.append_nil] at hsum
    exact ⟨_, hsum, Int.zero_sub _⟩
  | .plus hsum hterm =>
    obtain ⟨l, hl, rfl⟩ := hsum.exists_sum
    obtain ⟨r, hr, rfl⟩ := hterm.exists_term
    exact ⟨_, hl.snoc .plus hr, rfl⟩
  | .minus hsum hterm =>
    obtain ⟨l, hl, rfl⟩ := hsum.exists_sum
    obtain ⟨r, hr, rfl⟩ := hterm.exists_term
    exact ⟨_, hl.snoc .minus hr, rfl⟩

end

/-! ## Values of trees -/

/-- A factor has its value, if the shorter sums in it have theirs. -/
theorem Factor.factorValue (hsum : ∀ us r, us.length < ts.length → Sum us r →
      SumValue val us (r.exactValue val)) (h : Factor ts e) :
    FactorValue val ts (e.exactValue val) := by
  cases h with
  | name x => exact .name x
  | number hnum => exact .number hnum
  | @parens us e hin =>
    refine .parens (hsum us e ?_ hin)
    rw [List.length_append, List.length_cons]
    exact Nat.lt_add_right _ (Nat.lt_succ_self _)

/-- A term has its value, if the shorter sums in it have theirs. -/
theorem Term.termValue (hsum : ∀ us r, us.length < ts.length → Sum us r →
      SumValue val us (r.exactValue val)) (h : Term ts e) :
    TermValue val ts (e.exactValue val) := by
  cases h with
  | @chain us first vs ops hfirst hops =>
    rw [List.length_append] at hsum
    have hstep {t op us l vs r} (hsign : MulSign t op) (hl : TermValue val us (l.exactValue val))
        (hr : FactorValue val vs (r.exactValue val)) :
        TermValue val (us ++ t :: vs) ((Expr.binary op l r).exactValue val) := by
      cases hsign with
      | times => exact .times hl hr
      | divide => exact .divide hl hr
    have hfactor (ws : List Token) (r : Expr) (hws : ws.length ≤ us.length ∨ ws.length ≤ vs.length)
        (hr : Factor ws r) : FactorValue val ws (r.exactValue val) :=
      hr.factorValue fun xs q hxs => hsum xs q (by omega)
    exact hops.recursion (motive := fun ts e => TermValue val ts (e.exactValue val)) hstep
      (.factor (hfactor us first (.inl (Nat.le_refl _)) hfirst))
      fun ws r hws => hfactor ws r (.inr hws)

/-- A sum has its value. -/
theorem Sum.sumValue (h : Sum ts e) : SumValue val ts (e.exactValue val) := by
  -- a factor can hold a sum again, but a shorter one
  induction hlen : ts.length using Nat.strongRecOn generalizing ts e with
  | ind n ih =>
    subst hlen
    have hterm (us : List Token) (r : Expr) (hus : us.length ≤ ts.length) (hr : Term us r) :
        TermValue val us (r.exactValue val) :=
      hr.termValue fun vs q hvs hq => ih vs.length (by omega) hq rfl
    have hstep {t op us l vs r} (hsign : AddSign t op) (hl : SumValue val us (l.exactValue val))
        (hr : TermValue val vs (r.exactValue val)) :
        SumValue val (us ++ t :: vs) ((Expr.binary op l r).exactValue val) := by
      cases hsign with
      | plus => exact .plus hl hr
      | minus => exact .minus hl hr
    cases h with
    | plain hopt hfirst hops =>
      simp only [List.length_append] at hterm
      exact hops.recursion (motive := fun ts e => SumValue val ts (e.exactValue val)) hstep
        (.term hopt (hterm _ _ (by omega) hfirst)) fun ws r hws => hterm ws r (by omega)
    | @negated ps us first vs ops hopt hfirst hops =>
      simp only [List.length_append, List.length_cons] at hterm
      have hvalue : (Expr.binary .sub (.number 0) first).exactValue val =
          -first.exactValue val := Int.zero_sub _
      have hnegative : SumValue val (ps ++ .minus :: us)
          ((Expr.binary .sub (.number 0) first).exactValue val) := by
        rw [hvalue]
        exact .negative hopt (hterm _ _ (by omega) hfirst)
      exact hops.recursion (motive := fun ts e => SumValue val ts (e.exactValue val)) hstep
        hnegative fun ws r hws => hterm ws r (by omega)

/-- Tokens are one expression at most. -/
theorem Sum.unique {e' : Expr} (h : Sum ts e) (h' : Sum ts e') : e = e' := by
  have hne : ∀ t ∈ ts, t ≠ .endOfInput := by
    rintro t ht rfl
    exact (h.standsInLine _ ht).1
  -- a reader in front of these tokens gives either tree, and it gives only one
  have hall := consumes_ofTokens [] hne
  have hends : Token.EndsSum (ReaderState.ofTokens []).current.token := ⟨rfl, rfl⟩
  have hread := Reader.accepts_exprWithin ts.length h (Nat.le_refl _) hall hends
  have hread' := Reader.accepts_exprWithin ts.length h' (Nat.le_refl _) hall hends
  rw [hread] at hread'
  cases hread'
  rfl

/-- The value of an expression is the one value of its tokens. -/
theorem Sum.value_iff (h : Sum ts e) {z : Int} : SumValue val ts z ↔ z = e.exactValue val := by
  constructor
  · intro hvalue
    obtain ⟨e', he', rfl⟩ := hvalue.exists_sum
    rw [h.unique he']
  · rintro rfl
    exact h.sumValue

end Grammar

/-! ## Arithmetic of the machine -/

/-- The machine computes exactly or reports the first operation that has no result.  An expression
for numbers has a value exactly if no divisor in it is zero and all of its parts have values of
sixteen bits, and then this is the value on all integers; otherwise the fault of the first
operation that offends is reported on the line of the machine.  If a reader gave the expression,
the value on all integers is that of the tokens it moved over, by the conventional rules. -/
theorem arithmetic_is_exact {s : State} {e : Expr} (h : e.IsNumeric s.store) :
    (∀ v t, (demand (eval s.store e)).run s = .ok v t ↔ t = s ∧ e.IsExact s.store.number ∧
        ∃ n, v = .integer n ∧ n.toInt = e.exactValue s.store.number) ∧
      (∀ error t, (demand (eval s.store e)).run s = .error error t ↔ t = s ∧
        ∃ fault, error = .onLine (s.line.getD 0) fault ∧
          e.FirstOffence s.store.number fault) ∧
      ∀ {bound : Nat} {r u : ReaderState}, (Reader.exprWithin bound).run r = .ok e u →
        ∃ ts, Consumes r ts u ∧
          ∀ z, SumValue s.store.number ts z ↔ z = e.exactValue s.store.number := by
  refine ⟨fun v t => ?_, fun error t => ?_, fun hread => ?_⟩
  · rw [run_demand_eq_ok_iff, h.eval_eq_ok_iff]
  · simp only [run_demand_eq_error_iff, h.eval_eq_error_iff, State.blame]
  · obtain ⟨ts, hsum, hts⟩ := Reader.reads_exprWithin _ hread
    exact ⟨ts, hts, fun z => hsum.value_iff⟩

/-- A leading minus goes with a whole term, and an overflow in front of a division by zero is what
is reported. -/
theorem minus_seven_halves :
    let s : State := { store := [("A", .integer 300), ("Z", .integer 0)], line := some 10 }
    let ts : List Token := [.minus, .number "7", .divide, .number "2", .times, .number "3"]
    let quotient : Expr := .binary .mul (.binary .div (.number 7) (.number 2)) (.number 3)
    let product : Expr := .binary .mul (.name "A") (.name "A")
    (Reader.exprWithin 6).run (.ofTokens ts) =
        .ok (.binary .sub (.number 0) quotient) (.ofTokens []) ∧
      (demand (eval s.store (.binary .sub (.number 0) quotient))).run s =
        .ok (.integer (-9)) s ∧
      SumValue s.store.number ts (-9) ∧
      (Expr.binary .sub product (.binary .div (.number 1) (.name "Z"))).FirstOffence
        s.store.number .overflow := by
  intro s ts quotient product
  have hread : (Reader.exprWithin 6).run (.ofTokens ts) =
      .ok (.binary .sub (.number 0) quotient) (.ofTokens []) := by cbv
  have heval : (demand (eval s.store (.binary .sub (.number 0) quotient))).run s =
      .ok (.integer (-9)) s := by cbv
  have hfault : (demand (eval s.store
      (.binary .sub product (.binary .div (.number 1) (.name "Z"))))).run s =
        .error (.onLine 10 .overflow) s := by cbv
  have hfirst : (Expr.binary .sub (.number 0) quotient).IsNumeric s.store := by
    simp [Expr.IsNumeric, quotient]
  have hsecond : (Expr.binary .sub product (.binary .div (.number 1) (.name "Z"))).IsNumeric
      s.store :=
    ⟨⟨⟨300, by cbv⟩, ⟨300, by cbv⟩⟩, trivial, ⟨0, by cbv⟩⟩
  obtain ⟨-, -, hvalue⟩ := arithmetic_is_exact hfirst
  obtain ⟨-, hreport, -⟩ := arithmetic_is_exact hsecond
  refine ⟨hread, heval, ?_, ?_⟩
  · obtain ⟨us, hus, hz⟩ := hvalue hread
    have hne : ∀ t ∈ ts, t ≠ .endOfInput := by simp [ts]
    have hts : Consumes (.ofTokens ts) ts (.ofTokens []) := consumes_ofTokens [] hne
    rw [hts.unique hus, hz]
    rfl
  · obtain ⟨-, fault, herror, hoffence⟩ := (hreport _ _).1 hfault
    cases herror
    exact hoffence

end LineBasic
