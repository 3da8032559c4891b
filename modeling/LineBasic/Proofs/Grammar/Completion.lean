import LineBasic.Proofs.Grammar.Locality

/-!
# What a failed reader has read can be completed

A reader that fails has moved over tokens with which something begins that its rule allows, and if
it has refused a numeral only for being too large, another numeral could stand there.  So readers
never move over a token that is wrong where it stands.

Main definitions:

- `Phrase`: the lists of tokens that a rule allows.
- `Reader.CompletesAt`: what a reader has moved over when it fails can be completed.

Main results:

- `Reader.CompletesAt.bind`: sequences of readers.
- `Reader.completes_exprWithin`, `Reader.completes_statementWithin`,
  `Reader.completes_linesWithin`: the readers of expressions, statements and programs.
-/

namespace LineBasic

open Grammar ReaderState

namespace Grammar

/-- The lists of tokens that a rule allows. -/
def Phrase {α : Type} (rule : List Token → α → Prop) (ts : List Token) : Prop :=
  ∃ a, rule ts a

/-- Numerals in range. -/
inductive Numeral : List Token → Int16 → Prop where
  | mk {digits n} : IsNumber digits n → Numeral [.number digits] n

/-- Signs of relations. -/
inductive Relation : List Token → Relop → Prop where
  | mk {t op} : RelationSign t op → Relation [t] op

/-- Zero is a number. -/
theorem isNumber_zero : IsNumber "0" 0 := ⟨by decide, by decide⟩

/-- Some name is a factor, -/
theorem phrase_factor : Phrase Factor [.identifier "A"] := ⟨_, .name "A"⟩

/-- and a term, -/
theorem phrase_term : Phrase Term [.identifier "A"] := ⟨_, (Factor.name "A").term⟩

/-- and a sum. -/
theorem phrase_sum : Phrase Sum [.identifier "A"] := ⟨_, (Factor.name "A").term.sum⟩

end Grammar

/-- An error about a numeral that is too large. -/
def ParseError.IsOutOfRange (e : ParseError) : Prop :=
  ∃ p digits, e = .grammatical ⟨p, .numberOutOfRange digits⟩

namespace Reader

variable {α β : Type}

/-! ## Sequences -/

/-- If the reader `r` fails from the state `s`, then what it has moved over can be completed, by a
numeral and more if it refuses a numeral for being too large. -/
def CompletesAt (s : ReaderState) (r : Reader α) (phrase : List Token → Prop) : Prop :=
  ∀ ⦃e u⦄, r.run s = .error e u → ∃ ts us, Meets s ts e u ∧ phrase (ts ++ us) ∧
    (e.IsOutOfRange → ∃ digits vs, us = .number digits :: vs)

/-- The same from all states. -/
def Completes (r : Reader α) (phrase : List Token → Prop) : Prop :=
  ∀ s, CompletesAt s r phrase

namespace CompletesAt

variable {s : ReaderState} {phrase : List Token → Prop}

/-- What never fails needs no completion. -/
theorem pure (s : ReaderState) (a : α) (phrase : List Token → Prop) :
    CompletesAt s (Pure.pure a) phrase := by
  intro e u h
  cases h

/-- In front of a token that is not expected there may stand anything. -/
theorem unexpected (expected : Expected) (us : List Token) (h : phrase us) :
    CompletesAt s (Reader.unexpected expected : Reader α) phrase := by
  intro e u hrun
  cases hrun
  refine ⟨[], us, .refused (.nil _) rfl, h, ?_⟩
  rintro ⟨p, digits, heq⟩
  cases heq

/-- What can be completed by one rule can be completed by a wider one. -/
theorem mono {r : Reader α} {phrase' : List Token → Prop} (h : CompletesAt s r phrase)
    (hwider : ∀ ts, phrase ts → phrase' ts) : CompletesAt s r phrase' := by
  intro e u hrun
  rcases h hrun with ⟨ts, us, hts, hphrase, hopens⟩
  exact ⟨ts, us, hts, hwider _ hphrase, hopens⟩

/-- Looking at the current token moves over nothing. -/
theorem peek {f : Token → Reader α} (h : CompletesAt s (f s.current.token) phrase) :
    CompletesAt s (Reader.peek >>= f) phrase :=
  h

/-- A sequence can be completed if its first part can, and its second part behind that. -/
theorem bind {r : Reader α} {f : α → Reader β} {rule : List Token → α → Prop}
    {phrase' : List Token → Prop} (hreads : Reads r rule) (hr : CompletesAt s r phrase')
    (hmore : ∀ ts, phrase' ts → ∃ us, phrase (ts ++ us))
    (hf : ∀ {a u ts}, rule ts a → CompletesAt u (f a) fun us => phrase (ts ++ us)) :
    CompletesAt s (r >>= f) phrase := by
  intro e w hrun
  rcases run_bind_eq_error_iff.1 hrun with he | ⟨a, v, ha, he⟩
  · rcases hr he with ⟨ts, us, hts, hphrase, hopens⟩
    rcases hmore _ hphrase with ⟨vs, hvs⟩
    refine ⟨ts, us ++ vs, hts, by rwa [← List.append_assoc], fun hrange => ?_⟩
    rcases hopens hrange with ⟨digits, ws, rfl⟩
    exact ⟨digits, ws ++ vs, rfl⟩
  · rcases hreads ha with ⟨ts, hrule, hts⟩
    rcases hf hrule he with ⟨us, vs, hus, hphrase, hopens⟩
    exact ⟨ts ++ us, vs, hts.meets hus, by rwa [List.append_assoc], hopens⟩

/-- The last reader of a sequence. -/
theorem last {r : Reader α} {g : α → β} {phrase' : List Token → Prop}
    (hr : CompletesAt s r phrase') (hmore : ∀ ts, phrase' ts → phrase ts) :
    CompletesAt s (r >>= fun a => Pure.pure (g a)) phrase := by
  intro e w hrun
  rcases run_bind_eq_error_iff.1 hrun with he | ⟨a, v, ha, he⟩
  · exact hr.mono hmore he
  · cases he

/-- Behind a token that is accepted, the rest can be completed. -/
theorem advance_bind {f : Unit → Reader α} {t : Token} (htok : s.current.token = t)
    (hne : t ≠ .endOfInput) (us : List Token) (hsample : phrase (t :: us))
    (hf : ∀ u, CompletesAt u (f ()) fun us => phrase (t :: us)) :
    CompletesAt s (Reader.advance >>= f) phrase := by
  subst htok
  intro e w hrun
  rcases run_bind_eq_error_iff.1 hrun with he | ⟨a, v, ha, he⟩
  · obtain ⟨err, rfl, -⟩ := lexical_of_advance he
    refine ⟨_, us, .faulty (.nil _) hne he, hsample, ?_⟩
    rintro ⟨p, digits, heq⟩
    cases heq
  · rcases hf v he with ⟨us, vs, hus, hphrase, hopens⟩
    exact ⟨_, vs, Consumes.meets (consumes_of_advance rfl hne ha) hus, hphrase, hopens⟩

end CompletesAt

/-! ## Primitive readers -/

/-- An optional token is moved over or not. -/
theorem reads_eat_iff {t : Token} (ht : t ≠ .endOfInput) :
    Reads (eat t) fun ts found => ts = if found then [t] else [] := by
  intro s found u h
  cases found with
  | true => exact ⟨[t], rfl, (run_eat_eq_true_iff ht).1 h⟩
  | false =>
    obtain ⟨-, rfl⟩ := run_eat_eq_false_iff.1 h
    exact ⟨[], rfl, .nil _⟩

/-- A token that must be there is moved over. -/
theorem reads_expect {t : Token} (ht : t ≠ .endOfInput) :
    Reads (expect t) fun ts _ => ts = [t] :=
  fun _ _ _ h => ⟨[t], rfl, (run_expect_eq_ok_iff ht).1 h⟩

/-- Numbers are read by the rule for numerals. -/
theorem reads_numberLiteral : Reads numberLiteral Numeral := by
  intro s n u h
  rcases run_numberLiteral_eq_ok_iff.1 h with ⟨digits, hnum, hts⟩
  exact ⟨_, .mk hnum, hts⟩

/-- Relations are read by their rule. -/
theorem reads_relation_sign : Reads relation Relation := by
  intro s op u h
  rcases reads_relation h with ⟨t, hsign, hts⟩
  exact ⟨_, .mk hsign, hts⟩

/-- A token that is accepted needs no more. -/
theorem completes_eat {t : Token} (ht : t ≠ .endOfInput) : Completes (eat t) (· = [t]) := by
  intro s
  unfold eat
  refine .peek ?_
  split
  · rename_i htok
    exact .advance_bind htok ht [] rfl fun _ => .pure _ _ _
  · exact .pure _ _ _

/-- A token that must be there can be put there. -/
theorem completes_expect {t : Token} (ht : t ≠ .endOfInput) : Completes (expect t) (· = [t]) := by
  intro s
  unfold expect
  refine .bind (reads_eat_iff ht) (completes_eat ht s)
    (fun ts hts => ⟨[], by rw [hts, List.append_nil]⟩) fun {found u ts} hts => ?_
  cases found with
  | true => exact .pure _ _ _
  | false =>
    subst hts
    exact .unexpected _ [t] rfl

/-- A number can be put where one is missing or too large. -/
theorem completes_numberLiteral : Completes numberLiteral (Phrase Numeral) := by
  have hzero : Phrase Numeral [.number "0"] := ⟨_, .mk isNumber_zero⟩
  intro s
  unfold numberLiteral
  refine .peek ?_
  split
  · rename_i digits htok
    split
    · rename_i n hn
      have hnumeral : Phrase Numeral [.number digits] := ⟨n, .mk (literalNumber?_eq_some_iff.1 hn)⟩
      exact .advance_bind htok (by simp) _ hnumeral fun _ => .pure _ _ _
    · rename_i hnone
      intro e u h
      cases h
      exact ⟨[], [.number "0"], .refused (.nil _) ⟨htok, hnone⟩, hzero, fun _ => ⟨_, _, rfl⟩⟩
  · exact .unexpected _ _ hzero

/-- A name can be put where one is missing. -/
theorem completes_identifier : Completes identifier (Phrase Name) := by
  intro s
  unfold identifier
  refine .peek ?_
  split
  · rename_i spelling htok
    exact .advance_bind htok (by simp) [] ⟨_, .mk spelling⟩ fun _ => .pure _ _ _
  · exact .unexpected _ [.identifier "A"] ⟨_, .mk "A"⟩

/-- A relation can be put where one is missing. -/
theorem completes_relation : Completes relation (Phrase Relation) := by
  intro s
  unfold relation
  refine .peek ?_
  split
  · rename_i op hop
    have hsign := Token.relop?_eq_some_iff.1 hop
    exact .advance_bind rfl hsign.ne_endOfInput [] ⟨_, .mk hsign⟩ fun _ => .pure _ _ _
  · exact .unexpected _ [.equal] ⟨_, .mk .equal⟩

/-! ## Expressions -/

/-- Operands can be completed if what stands in parentheses can. -/
theorem completes_factor {nested : Reader Expr} (hreads : Reads nested Sum)
    (hnested : Completes nested (Phrase Sum)) : Completes (factor nested) (Phrase Factor) := by
  have hparens {ts : List Token} (h : Phrase Sum ts) :
      Phrase Factor (.leftParen :: ts ++ [.rightParen]) :=
    h.imp fun _ hsum => .parens hsum
  intro s
  unfold factor
  refine .peek ?_
  split
  · refine (completes_identifier s).last fun ts hname => ?_
    rcases hname with ⟨x, ⟨y⟩⟩
    exact ⟨_, .name y⟩
  · refine (completes_numberLiteral s).last fun ts hnumeral => ?_
    rcases hnumeral with ⟨n, ⟨hnum⟩⟩
    exact ⟨_, .number hnum⟩
  · rename_i htok
    refine .advance_bind htok (by simp) _ (hparens phrase_sum) fun v => ?_
    refine .bind hreads (hnested v) (fun ts hsum => ⟨_, hparens hsum⟩) fun {e w ts} hsum => ?_
    refine (completes_expect (by simp) w).last fun us hus => ?_
    rw [hus]
    exact hparens ⟨e, hsum⟩
  · exact .unexpected _ _ phrase_factor

/-- Chains can be completed if their operands can. -/
theorem completes_leftAssoc {op? : Token → Option ArithOp} {sign : Token → ArithOp → Prop}
    (hsign : ∀ {t op}, op? t = some op → sign t op ∧ t ≠ .endOfInput) {operand : Reader Expr}
    {rule : List Token → Expr → Prop} (hreads : Reads operand rule)
    (hoperand : Completes operand (Phrase rule)) {sample : List Token}
    (hsample : Phrase rule sample) (bound : Nat) (lhs : Expr) :
    Completes (leftAssoc op? operand bound lhs) (Phrase (Operands sign rule)) := by
  induction bound generalizing lhs with
  | zero => exact fun s => .pure _ _ _
  | succ bound ih =>
    intro s
    unfold leftAssoc
    refine .peek ?_
    split
    · rename_i op hop
      have hone {ts : List Token} (h : Phrase rule ts) :
          Phrase (Operands sign rule) (s.current.token :: ts ++ []) :=
        h.elim fun e hrule => ⟨_, .cons (hsign hop).1 hrule .nil⟩
      refine .advance_bind rfl (hsign hop).2 _ (hone hsample) fun v => ?_
      refine .bind hreads (hoperand v) (fun ts hrule => ⟨[], hone hrule⟩) fun {e w ts} hrule => ?_
      refine (ih _ w).mono fun us ⟨ops, hops⟩ => ?_
      exact ⟨_, .cons (hsign hop).1 hrule hops⟩
    · exact .pure _ _ _

/-- Products can be completed if what stands in parentheses can. -/
theorem completes_term {nested : Reader Expr} (hreads : Reads nested Sum)
    (hnested : Completes nested (Phrase Sum)) (bound : Nat) :
    Completes (term nested bound) (Phrase Term) := by
  intro s
  refine .bind (reads_factor hreads) (completes_factor hreads hnested s)
    (fun ts ⟨e, hfactor⟩ => ⟨[], _, .chain hfactor .nil⟩) fun {e u ts} hfactor => ?_
  have hchain := completes_leftAssoc Token.mulSign_of_multiplicative? (reads_factor hreads)
    (completes_factor hreads hnested) phrase_factor bound e
  exact (hchain u).mono fun us ⟨ops, hops⟩ => ⟨_, .chain hfactor hops⟩

/-- Sums can be completed if what stands in parentheses can. -/
theorem completes_sum {nested : Reader Expr} (hreads : Reads nested Sum)
    (hnested : Completes nested (Phrase Sum)) (bound : Nat) :
    Completes (sum nested bound) (Phrase Sum) := by
  -- the signs in front, the first term and the operations behind it, as far as they are read
  have hsum (negative : Bool) {ps ts us : List Token} (hopt : Optional .plus ps)
      (hterm : Phrase Term ts) (hops : Phrase (Operands AddSign Term) us) :
      Phrase Sum (ps ++ ((if negative then [.minus] else []) ++ (ts ++ us))) := by
    rcases hterm with ⟨e, hterm⟩
    rcases hops with ⟨ops, hops⟩
    cases negative with
    | true => exact ⟨_, by simpa using Sum.negated hopt hterm hops⟩
    | false => exact ⟨_, by simpa using Sum.plain hopt hterm hops⟩
  have hnil : Phrase (Operands AddSign Term) [] := ⟨_, .nil⟩
  intro s
  refine .bind (reads_eat_iff (by simp)) (completes_eat (by simp) s) ?_ fun {found u ps} hps => ?_
  · rintro _ rfl
    exact ⟨_, hsum false .present phrase_term hnil⟩
  have hopt : Optional .plus ps := by
    rw [hps]
    cases found <;> constructor
  refine .bind (reads_eat_iff (by simp)) (completes_eat (by simp) u) ?_
    fun {negative v ms} hms => ?_
  · rintro _ rfl
    exact ⟨_, hsum true hopt phrase_term hnil⟩
  subst hms
  refine .bind (reads_term hreads bound) (completes_term hreads hnested bound v)
    (fun ts hterm => ⟨[], hsum negative hopt hterm hnil⟩) fun {e w ts} hterm => ?_
  have hchain := completes_leftAssoc Token.addSign_of_additive? (reads_term hreads bound)
    (completes_term hreads hnested bound) phrase_term bound (negate negative e)
  exact (hchain w).mono fun us hops => hsum negative hopt ⟨e, hterm⟩ hops

/-- Expressions can be completed. -/
theorem completes_exprWithin (bound : Nat) : Completes (exprWithin bound) (Phrase Sum) := by
  induction bound with
  | zero => exact fun s => .unexpected _ _ phrase_sum
  | succ bound ih => exact completes_sum (reads_exprWithin bound) ih (bound + 1)

/-- Items can be completed. -/
theorem completes_itemWithin (bound : Nat) : Completes (itemWithin bound) (Phrase Item) := by
  intro s
  unfold itemWithin
  refine .peek ?_
  split
  · rename_i content htok
    have hitem : Phrase Item [.text content] := ⟨_, .text content⟩
    exact .advance_bind htok (by simp) _ hitem fun _ => .pure _ _ _
  · exact (completes_exprWithin bound s).mono fun ts ⟨e, hsum⟩ => ⟨e, .expr hsum⟩

/-! ## Lists -/

/-- What stands behind commas can be completed if each element can. -/
theorem completes_afterCommas {element : Reader α} {rule : List Token → α → Prop}
    (hreads : Reads element rule) (helement : Completes element (Phrase rule))
    {sample : List Token} (hsample : Phrase rule sample) (bound : Nat) {ts : List Token} {a : α}
    (hfirst : rule ts a) :
    Completes (afterCommas element bound) fun us => Phrase (CommaList rule) (ts ++ us) := by
  induction bound generalizing ts a with
  | zero => exact fun s => .pure _ _ _
  | succ bound ih =>
    have hmore {us : List Token} (h : Phrase (CommaList rule) us) :
        Phrase (CommaList rule) (ts ++ .comma :: us) :=
      h.elim fun bs hbs => ⟨_, .more hfirst hbs⟩
    have hone {us : List Token} (h : Phrase rule us) : Phrase (CommaList rule) us :=
      h.elim fun b hb => ⟨_, .one hb⟩
    intro s
    unfold afterCommas
    refine .bind (reads_eat_iff (by simp)) (completes_eat (by simp) s) ?_
      fun {found u us} hfound => ?_
    · rintro _ rfl
      exact ⟨sample, hmore (hone hsample)⟩
    subst hfound
    cases found with
    | true =>
      refine .bind hreads (helement u) (fun us hus => ⟨[], ?_⟩) fun {b v us} hb => ?_
      · simpa using hmore (hone hus)
      · exact (ih hb v).last fun vs => hmore
    | false => exact .pure _ _ _

/-- Lists can be completed if their elements can. -/
theorem completes_commaList {element : Reader α} {rule : List Token → α → Prop}
    (hreads : Reads element rule) (helement : Completes element (Phrase rule))
    {sample : List Token} (hsample : Phrase rule sample) (bound : Nat) :
    Completes (commaList element bound) (Phrase (CommaList rule)) := by
  intro s
  refine .bind hreads (helement s) (fun ts ⟨a, ha⟩ => ⟨[], [a], ?_⟩) fun {a u ts} ha => ?_
  · simpa using .one ha
  · exact (completes_afterCommas hreads helement hsample bound ha u).last fun us hus => hus

/-- Names with commas between them can be completed. -/
theorem completes_names (bound : Nat) :
    Completes (commaList identifier bound) (Phrase (CommaList Name)) :=
  completes_commaList reads_identifier completes_identifier ⟨_, .mk "A"⟩ bound

/-- Items with commas between them can be completed. -/
theorem completes_itemsWithin (bound : Nat) :
    Completes (itemsWithin bound) (Phrase (CommaList Item)) :=
  completes_commaList (reads_itemWithin bound) (completes_itemWithin bound)
    (phrase_sum.imp fun _ hsum => .expr hsum) bound

/-! ## Statements -/

/-- Behind its keyword, a conditional statement can be completed if the statement inside it
can. -/
theorem completes_conditional {nested : Reader Stmt} (hnested : Completes nested (Phrase Statement))
    (bound : Nat) {s : ReaderState} (htok : s.current.token = .keyword .test) :
    CompletesAt s (conditional nested bound) (Phrase Statement) := by
  have hstmt {ts ms us vs : List Token} (hl : Phrase Sum ts) (hop : Phrase Relation ms)
      (hr : Phrase Sum us) (hbody : Phrase Statement vs) :
      Phrase Statement (.keyword .test :: (ts ++ (ms ++ (us ++ .keyword .consequent :: vs)))) := by
    rcases hl with ⟨l, hl⟩
    rcases hop with ⟨op, ⟨hsign⟩⟩
    rcases hr with ⟨r, hr⟩
    rcases hbody with ⟨body, hbody⟩
    exact ⟨_, by simpa using Statement.cond hl hsign hr hbody⟩
  have hequal : Phrase Relation [.equal] := ⟨_, .mk .equal⟩
  have hret : Phrase Statement [.keyword .ret] := ⟨_, .ret⟩
  refine .advance_bind htok (by simp) _ (hstmt phrase_sum hequal phrase_sum hret) fun u => ?_
  refine .bind (reads_exprWithin bound) (completes_exprWithin bound u)
    (fun ts hl => ⟨_, hstmt hl hequal phrase_sum hret⟩) fun {l v ts} hl => ?_
  replace hl : Phrase Sum ts := ⟨l, hl⟩
  refine .bind reads_relation_sign (completes_relation v)
    (fun ms hop => ⟨_, hstmt hl hop phrase_sum hret⟩) fun {op w ms} hop => ?_
  replace hop : Phrase Relation ms := ⟨op, hop⟩
  refine .bind (reads_exprWithin bound) (completes_exprWithin bound w)
    (fun us hr => ⟨_, hstmt hl hop hr hret⟩) fun {r x us} hr => ?_
  replace hr : Phrase Sum us := ⟨r, hr⟩
  refine .bind (reads_expect (by simp)) (completes_expect (by simp) x) ?_ fun {_ y ks} hks => ?_
  · rintro _ rfl
    exact ⟨_, hstmt hl hop hr hret⟩
  subst hks
  exact (hnested y).last fun vs hbody => hstmt hl hop hr hbody

/-- The statement that the current keyword opens can be completed if a statement inside it can. -/
theorem completes_statementOf {nested : Reader Stmt}
    (hnested : Completes nested (Phrase Statement)) (bound : Nat) {s : ReaderState} {k : Keyword}
    (htok : s.current.token = .keyword k) :
    CompletesAt s (statementOf nested bound k) (Phrase Statement) := by
  have hret : Phrase Statement [.keyword .ret] := ⟨_, .ret⟩
  cases k with
  | integer =>
    refine .advance_bind htok (by simp) [.identifier "A"]
      ⟨_, .integers (.one (.mk "A"))⟩ fun u => ?_
    exact (completes_names bound u).last fun ts ⟨xs, hxs⟩ => ⟨_, .integers hxs⟩
  | string =>
    refine .advance_bind htok (by simp) [.identifier "A"]
      ⟨_, .strings (.one (.mk "A"))⟩ fun u => ?_
    exact (completes_names bound u).last fun ts ⟨xs, hxs⟩ => ⟨_, .strings hxs⟩
  | assign =>
    have hassign {ts us : List Token} (hname : Phrase Name ts) (hitem : Phrase Item us) :
        Phrase Statement (.keyword .assign :: (ts ++ .becomes :: us)) := by
      rcases hname with ⟨x, ⟨y⟩⟩
      rcases hitem with ⟨e, hitem⟩
      exact ⟨_, .assign y hitem⟩
    have hitem : Phrase Item [.text ""] := ⟨_, .text ""⟩
    refine .advance_bind htok (by simp) _ (hassign ⟨_, .mk "A"⟩ hitem) fun u => ?_
    refine .bind reads_identifier (completes_identifier u)
      (fun ts hname => ⟨_, hassign hname hitem⟩) fun {x v ts} hname => ?_
    refine .bind (reads_expect (by simp)) (completes_expect (by simp) v) ?_ fun {_ w ms} hms => ?_
    · rintro _ rfl
      exact ⟨_, hassign ⟨x, hname⟩ hitem⟩
    subst hms
    exact (completes_itemWithin bound w).last fun us hitem => hassign ⟨x, hname⟩ hitem
  | input =>
    refine .advance_bind htok (by simp) [.identifier "A"] ⟨_, .input "A"⟩ fun u => ?_
    refine (completes_identifier u).last fun ts hname => ?_
    rcases hname with ⟨x, ⟨y⟩⟩
    exact ⟨_, .input y⟩
  | print =>
    refine .advance_bind htok (by simp) [.text ""] ⟨_, .print (.one (.text ""))⟩ fun u => ?_
    exact (completes_itemsWithin bound u).last fun ts ⟨es, hes⟩ => ⟨_, .print hes⟩
  | test => exact completes_conditional hnested bound htok
  | goto =>
    refine .advance_bind htok (by simp) _ ⟨_, .goto isNumber_zero⟩ fun u => ?_
    refine (completes_numberLiteral u).last fun ts hnumeral => ?_
    rcases hnumeral with ⟨n, ⟨hnum⟩⟩
    exact ⟨_, .goto hnum⟩
  | gosub =>
    refine .advance_bind htok (by simp) _ ⟨_, .gosub isNumber_zero⟩ fun u => ?_
    refine (completes_numberLiteral u).last fun ts hnumeral => ?_
    rcases hnumeral with ⟨n, ⟨hnum⟩⟩
    exact ⟨_, .gosub hnum⟩
  | ret => exact .advance_bind htok (by simp) [] ⟨_, .ret⟩ fun _ => .pure _ _ _
  | stop => exact .advance_bind htok (by simp) [] ⟨_, .stop⟩ fun _ => .pure _ _ _
  | consequent => exact .unexpected _ _ hret

/-- Statements can be completed. -/
theorem completes_statementWithin (bound : Nat) :
    Completes (statementWithin bound) (Phrase Statement) := by
  have hret : Phrase Statement [.keyword .ret] := ⟨_, .ret⟩
  induction bound with
  | zero => exact fun s => .unexpected _ _ hret
  | succ bound ih =>
    intro s
    unfold statementWithin
    refine .peek ?_
    split
    · rename_i k htok
      exact completes_statementOf ih (bound + 1) htok
    · exact .unexpected _ _ hret

/-! ## Lines -/

/-- What stands between two line breaks can be completed. -/
theorem completes_lineWithin? (bound : Nat) :
    Completes (lineWithin? bound) (Phrase OptionalLine) := by
  have hline {ts us : List Token} (hnum : Phrase Numeral ts) (hstmt : Phrase Statement us) :
      Phrase OptionalLine (ts ++ us) := by
    rcases hnum with ⟨n, ⟨hnum⟩⟩
    rcases hstmt with ⟨stmt, hstmt⟩
    exact ⟨_, .line hnum hstmt⟩
  have hret : Phrase Statement [.keyword .ret] := ⟨_, .ret⟩
  intro s
  unfold lineWithin?
  refine .peek ?_
  split
  · refine .last ?_ fun ts (hts : Phrase OptionalLine ts) => hts
    refine .bind reads_numberLiteral (completes_numberLiteral s)
      (fun ts hnum => ⟨_, hline hnum hret⟩) fun {n u ts} hnum => ?_
    exact (completes_statementWithin bound u).last fun us hstmt => hline ⟨n, hnum⟩ hstmt
  · exact .pure _ _ _

/-- Programs can be completed. -/
theorem completes_linesWithin (bound : Nat) : Completes (linesWithin bound) (Phrase Lines) := by
  induction bound with
  | zero => exact fun s => .pure _ _ _
  | succ bound ih =>
    intro s
    unfold linesWithin
    refine .peek ?_
    split
    · exact .pure _ _ _
    · refine .bind (reads_lineWithin? (bound + 1)) (completes_lineWithin? (bound + 1) s)
        (fun ts hline => ⟨[], hline.imp fun here hhere => by simpa using .last hhere⟩)
        fun {here u ts} hline => ?_
      refine .peek ?_
      split
      · exact .pure _ _ _
      · refine .bind (reads_expect (by simp)) (completes_expect (by simp) u) ?_
          fun {_ v ks} hks => ?_
        · rintro _ rfl
          exact ⟨[], _, .next hline (.last .blank)⟩
        subst hks
        exact (ih v).last fun us hlines => hlines.elim fun rest hrest => ⟨_, .next hline hrest⟩

end Reader

end LineBasic
