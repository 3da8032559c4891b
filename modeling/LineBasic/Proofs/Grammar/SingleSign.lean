import Mathlib
import LineBasic.Proofs.Grammar.Acceptance

/-!
# Expressions with at most one sign

The grammar of the language allows one sign in front of an expression, a plus or a minus:

    sum        ::= [ "+" | "-" ] term { ( "+" | "-" ) term }

Readers allow a plus and then a minus, so they accept more.  What they accept beyond the grammar
shows in the tokens: a plus stands directly in front of a minus there, and nowhere else.

Main definitions:

- `SingleSign.Sum`, `SingleSign.Statement`, `SingleSign.ProgramRule`: the grammar with one sign.
- `SignsApart`: no plus stands directly in front of a minus.

Main results:

- `SingleSign.sum_iff`, `SingleSign.statement_iff`, `SingleSign.lines_iff`: the grammar with one
  sign derives what the readers' grammar derives from tokens with such signs only.
- `Program.single_sign_iff`: the same for whole texts.
-/

namespace LineBasic

namespace Grammar

/-! ## The grammar with one sign -/

namespace SingleSign

mutual

/-- Operands of a multiplication. -/
inductive Factor : List Token → Expr → Prop where
  | name (x : String) : Factor [.identifier x] (.name (upper x))
  | number {digits n} : IsNumber digits n → Factor [.number digits] (.number n)
  | parens {ts e} : Sum ts e → Factor (.leftParen :: ts ++ [.rightParen]) e

/-- Operands of an addition. -/
inductive Term : List Token → Expr → Prop where
  | chain {ts first us ops} : Factor ts first → Operands MulSign Factor us ops →
      Term (ts ++ us) (groupLeft first ops)

/-- Expressions.  There is no sign in front, a plus, or a minus that takes the first term from
zero. -/
inductive Sum : List Token → Expr → Prop where
  | plain {ts first us ops} : Term ts first → Operands AddSign Term us ops →
      Sum (ts ++ us) (groupLeft first ops)
  | plus {ts first us ops} : Term ts first → Operands AddSign Term us ops →
      Sum (.plus :: ts ++ us) (groupLeft first ops)
  | minus {ts first us ops} : Term ts first → Operands AddSign Term us ops →
      Sum (.minus :: ts ++ us) (groupLeft (.binary .sub (.number 0) first) ops)

end

/-- Texts and expressions. -/
inductive Item : List Token → Expr → Prop where
  | text (content : String) : Item [.text content] (.text content)
  | expr {ts e} : Sum ts e → Item ts e

/-- Statements. -/
inductive Statement : List Token → Stmt → Prop where
  | integers {ts xs} : CommaList Name ts xs →
      Statement (.keyword .integer :: ts) (.declare .integer xs)
  | strings {ts xs} : CommaList Name ts xs →
      Statement (.keyword .string :: ts) (.declare .string xs)
  | assign {ts e} (x : String) : Item ts e →
      Statement (.keyword .assign :: .identifier x :: .becomes :: ts) (.assign (upper x) e)
  | input (x : String) : Statement [.keyword .input, .identifier x] (.input (upper x))
  | print {ts es} : CommaList Item ts es → Statement (.keyword .print :: ts) (.print es)
  | cond {ts l t op us r vs body} : Sum ts l → RelationSign t op → Sum us r →
      Statement vs body →
      Statement (.keyword .test :: ts ++ t :: us ++ .keyword .consequent :: vs)
        (.cond l op r body)
  | goto {digits n} : IsNumber digits n →
      Statement [.keyword .goto, .number digits] (.goto n)
  | gosub {digits n} : IsNumber digits n →
      Statement [.keyword .gosub, .number digits] (.gosub n)
  | ret : Statement [.keyword .ret] .ret
  | stop : Statement [.keyword .stop] .stop

/-- What may stand between two line breaks: a numbered statement, or nothing. -/
inductive OptionalLine : List Token → List Line → Prop where
  | blank : OptionalLine [] []
  | line {digits n ts s} : IsNumber digits n → Statement ts s →
      OptionalLine (.number digits :: ts) [⟨n, s⟩]

/-- Lines in the order of the text, with line breaks between them. -/
inductive Lines : List Token → List Line → Prop where
  | last {ts here} : OptionalLine ts here → Lines ts here
  | next {ts here us rest} : OptionalLine ts here → Lines us rest →
      Lines (ts ++ .lineBreak :: us) (here ++ rest)

/-- Whole programs, the end of the text included. -/
inductive ProgramRule : List Token → Program → Prop where
  | mk {ts lines} : Lines ts lines → ProgramRule (ts ++ [.endOfInput]) ⟨lines⟩

end SingleSign

/-! ## Signs apart -/

/-- No plus stands directly in front of a minus. -/
def SignsApart (ts : List Token) : Prop :=
  ts.IsChain fun t u => ¬ (t = .plus ∧ u = .minus)

section Signs

variable {ts us vs : List Token} {t : Token}

@[simp] theorem signsApart_nil : SignsApart [] := List.IsChain.nil

@[simp] theorem signsApart_singleton (t : Token) : SignsApart [t] := List.IsChain.singleton t

/-- Any token but a plus may stand in front. -/
theorem signsApart_cons (h : t ≠ .plus) : SignsApart (t :: ts) ↔ SignsApart ts := by
  unfold SignsApart
  rw [List.isChain_cons]
  exact and_iff_right fun u _ hsigns => h hsigns.1

/-- Any token but a minus may stand behind. -/
theorem signsApart_snoc (h : t ≠ .minus) : SignsApart (ts ++ [t]) ↔ SignsApart ts := by
  unfold SignsApart
  rw [List.isChain_append]
  refine ⟨fun hall => hall.1, fun hts => ⟨hts, .singleton t, fun u _ v hv hsigns => ?_⟩⟩
  cases hv
  exact h hsigns.2

/-- Any token but these two may stand between. -/
theorem signsApart_append_cons (hplus : t ≠ .plus) (hminus : t ≠ .minus) :
    SignsApart (ts ++ t :: us) ↔ SignsApart ts ∧ SignsApart us := by
  have hsplit : SignsApart (ts ++ t :: us) ↔ SignsApart (ts ++ [t]) ∧ SignsApart (t :: us) :=
    List.isChain_split
  rw [hsplit, signsApart_snoc hminus, signsApart_cons hplus]

/-- Tokens that begin with another token than a minus and end with another one than a plus. -/
structure Closed (ts : List Token) : Prop where
  exists_head : ∃ t us, ts = t :: us ∧ t ≠ .minus
  exists_last : ∃ us t, ts = us ++ [t] ∧ t ≠ .plus

/-- Anything may stand behind tokens that do not end with a plus. -/
theorem signsApart_append (h : ∃ front t, ts = front ++ [t] ∧ t ≠ .plus) :
    SignsApart (ts ++ us) ↔ SignsApart ts ∧ SignsApart us := by
  rcases h with ⟨front, t, rfl, ht⟩
  have hsplit : SignsApart (front ++ t :: us) ↔ SignsApart (front ++ [t]) ∧ SignsApart (t :: us) :=
    List.isChain_split
  rw [List.append_assoc, List.singleton_append, hsplit, signsApart_cons ht]

/-- Anything may stand in front of tokens that do not begin with a minus. -/
theorem Closed.signsApart_cons (h : Closed ts) (t : Token) :
    SignsApart (t :: ts) ↔ SignsApart ts := by
  rcases h.exists_head with ⟨u, rest, rfl, hu⟩
  unfold SignsApart
  rw [List.isChain_cons_cons]
  exact and_iff_right fun hsigns => hu hsigns.2

/-- Anything may stand on both sides of closed tokens. -/
theorem Closed.signsApart_cons_append (h : Closed ts) (t : Token) :
    SignsApart (t :: ts ++ us) ↔ SignsApart ts ∧ SignsApart us := by
  rcases h.exists_last with ⟨front, last, hts, hlast⟩
  rw [signsApart_append ⟨t :: front, last, by rw [hts]; rfl, hlast⟩, h.signsApart_cons]

end Signs

/-! ## Ends of expressions -/

section Ends

variable {ts : List Token} {e : Expr}

/-- An expression does not end with a plus. -/
theorem Sum.exists_last (h : Sum ts e) : ∃ us t, ts = us ++ [t] ∧ t ≠ .plus := by
  refine h.recursion (motive := fun ts _ => ∃ us t, ts = us ++ [t] ∧ t ≠ .plus)
    ?name ?number ?parens ?plus ?minus ?binary
  case name => exact fun x => ⟨[], _, rfl, by simp⟩
  case number => exact fun _ => ⟨[], _, rfl, by simp⟩
  case parens => exact fun {ts} {_} _ => ⟨.leftParen :: ts, .rightParen, rfl, by simp⟩
  case plus =>
    rintro _ _ ⟨us, t, rfl, ht⟩
    exact ⟨.plus :: us, t, rfl, ht⟩
  case minus =>
    rintro _ _ ⟨us, t, rfl, ht⟩
    exact ⟨.minus :: us, t, rfl, ht⟩
  case binary =>
    rintro s _ ws _ _ _ _ - ⟨us, t, rfl, ht⟩
    exact ⟨ws ++ s :: us, t, by simp, ht⟩

/-- A term neither begins with a minus nor ends with a plus. -/
theorem Term.closed (h : Term ts e) : Closed ts where
  exists_head := by
    rcases h.exists_head with ⟨t, us, rfl, ht⟩
    refine ⟨t, us, rfl, ?_⟩
    rintro rfl
    cases ht
  exists_last := h.sum.exists_last

theorem Factor.closed (h : Factor ts e) : Closed ts :=
  h.term.closed

end Ends

/-! ## The two grammars -/

namespace SingleSign

/-- Chains have signs apart exactly if their operands have. -/
theorem operands_iff {sign : Token → ArithOp → Prop} {rule narrow : List Token → Expr → Prop}
    (hclosed : ∀ {vs e}, rule vs e → Closed vs) {us : List Token} {ops : List (ArithOp × Expr)}
    (hnarrow : ∀ vs e, vs.length ≤ us.length → (narrow vs e ↔ rule vs e ∧ SignsApart vs)) :
    Operands sign narrow us ops ↔ Operands sign rule us ops ∧ SignsApart us := by
  constructor
  · intro h
    induction h with
    | nil => exact ⟨.nil, signsApart_nil⟩
    | @cons t op us e vs ops hsign he hrest ih =>
      simp only [List.cons_append, List.length_cons, List.length_append] at hnarrow
      rcases (hnarrow us e (by omega)).1 he with ⟨hrule, hus⟩
      rcases ih fun ws r hws => hnarrow ws r (by omega) with ⟨hops, hvs⟩
      exact ⟨.cons hsign hrule hops, ((hclosed hrule).signsApart_cons_append t).2 ⟨hus, hvs⟩⟩
  · rintro ⟨h, hapart⟩
    induction h with
    | nil => exact .nil
    | @cons t op us e vs ops hsign he hrest ih =>
      simp only [List.cons_append, List.length_cons, List.length_append] at hnarrow
      rcases ((hclosed he).signsApart_cons_append t).1 hapart with ⟨hus, hvs⟩
      exact .cons hsign ((hnarrow us e (by omega)).2 ⟨he, hus⟩)
        (ih (fun ws r hws => hnarrow ws r (by omega)) hvs)

section Expressions

variable {ts : List Token} {e : Expr}

/-- Factors, if the expressions in them are as they should be. -/
theorem factor_iff (hsum : ∀ us r, us.length < ts.length →
      (Sum us r ↔ Grammar.Sum us r ∧ SignsApart us)) :
    Factor ts e ↔ Grammar.Factor ts e ∧ SignsApart ts := by
  have hparens (us : List Token) :
      SignsApart (.leftParen :: us ++ [.rightParen]) ↔ SignsApart us := by
    rw [List.cons_append, signsApart_cons (by simp), signsApart_snoc (by simp)]
  have hshorter (us : List Token) :
      us.length < (Token.leftParen :: us ++ [Token.rightParen]).length := by
    rw [List.length_append, List.length_cons]
    exact Nat.lt_add_right _ (Nat.lt_succ_self _)
  constructor
  · intro h
    cases h with
    | name x => exact ⟨.name x, by simp⟩
    | number hnum => exact ⟨.number hnum, by simp⟩
    | @parens us e hin =>
      rcases (hsum us e (hshorter us)).1 hin with ⟨hrule, hapart⟩
      exact ⟨.parens hrule, (hparens us).2 hapart⟩
  · rintro ⟨h, hapart⟩
    cases h with
    | name x => exact .name x
    | number hnum => exact .number hnum
    | @parens us e hin =>
      have hus := (hparens us).1 hapart
      exact .parens ((hsum us e (hshorter us)).2 ⟨hin, hus⟩)

/-- Terms, if the factors in them are as they should be. -/
theorem term_iff (hfactor : ∀ us r, us.length ≤ ts.length →
      (Factor us r ↔ Grammar.Factor us r ∧ SignsApart us)) :
    Term ts e ↔ Grammar.Term ts e ∧ SignsApart ts := by
  constructor
  · intro h
    cases h with
    | @chain us first vs ops hfirst hops =>
      rw [List.length_append] at hfactor
      rcases (hfactor us first (by omega)).1 hfirst with ⟨hrule, hus⟩
      rcases (operands_iff Factor.closed fun ws r hws => hfactor ws r (by omega)).1 hops with
        ⟨hchain, hvs⟩
      exact ⟨.chain hrule hchain, (signsApart_append hrule.closed.exists_last).2 ⟨hus, hvs⟩⟩
  · rintro ⟨h, hapart⟩
    cases h with
    | @chain us first vs ops hfirst hops =>
      rw [List.length_append] at hfactor
      rcases (signsApart_append hfirst.closed.exists_last).1 hapart with ⟨hus, hvs⟩
      exact .chain ((hfactor us first (by omega)).2 ⟨hfirst, hus⟩)
        ((operands_iff Factor.closed fun ws r hws => hfactor ws r (by omega)).2 ⟨hops, hvs⟩)

/-- Expressions begin with at most one sign exactly if their signs are apart. -/
theorem sum_iff : Sum ts e ↔ Grammar.Sum ts e ∧ SignsApart ts := by
  -- a factor can hold an expression again, but a shorter one
  induction hlen : ts.length using Nat.strongRecOn generalizing ts e with
  | ind n ih =>
    subst hlen
    have hterm : ∀ us r, us.length ≤ ts.length → (Term us r ↔ Grammar.Term us r ∧ SignsApart us) :=
      fun us r hus => term_iff fun vs q hvs => factor_iff fun ws p hws =>
        ih ws.length (by omega) rfl
    have hparts {us vs : List Token} {first : Expr} {ops : List (ArithOp × Expr)}
        (hlen : us.length + vs.length ≤ ts.length) :
        Term us first ∧ Operands AddSign Term vs ops ↔
          (Grammar.Term us first ∧ Operands AddSign Grammar.Term vs ops) ∧
            SignsApart us ∧ SignsApart vs := by
      rw [hterm us first (by omega),
        operands_iff Term.closed fun ws r hws => hterm ws r (by omega), and_and_and_comm]
    constructor
    · intro h
      cases h with
      | plain hfirst hops =>
        rcases (hparts (by simp)).1 ⟨hfirst, hops⟩ with ⟨⟨hrule, hrest⟩, hapart⟩
        exact ⟨.plain .absent hrule hrest, (signsApart_append hrule.closed.exists_last).2 hapart⟩
      | plus hfirst hops =>
        rcases (hparts (by simp)).1 ⟨hfirst, hops⟩ with ⟨⟨hrule, hrest⟩, hapart⟩
        exact ⟨.plain .present hrule hrest, (hrule.closed.signsApart_cons_append _).2 hapart⟩
      | minus hfirst hops =>
        rcases (hparts (by simp)).1 ⟨hfirst, hops⟩ with ⟨⟨hrule, hrest⟩, hapart⟩
        exact ⟨.negated .absent hrule hrest, (hrule.closed.signsApart_cons_append _).2 hapart⟩
    · rintro ⟨h, hapart⟩
      cases h with
      | plain hopt hfirst hops =>
        cases hopt with
        | absent =>
          have hboth := (signsApart_append hfirst.closed.exists_last).1 hapart
          rcases (hparts (by simp)).2 ⟨⟨hfirst, hops⟩, hboth⟩ with ⟨hterm, hrest⟩
          exact .plain hterm hrest
        | present =>
          have hboth := (hfirst.closed.signsApart_cons_append _).1 hapart
          rcases (hparts (by simp)).2 ⟨⟨hfirst, hops⟩, hboth⟩ with ⟨hterm, hrest⟩
          exact .plus hterm hrest
      | negated hopt hfirst hops =>
        cases hopt with
        | absent =>
          have hboth := (hfirst.closed.signsApart_cons_append _).1 hapart
          rcases (hparts (by simp)).2 ⟨⟨hfirst, hops⟩, hboth⟩ with ⟨hterm, hrest⟩
          exact .minus hterm hrest
        | present => exact absurd ⟨rfl, rfl⟩ (List.isChain_cons_cons.1 hapart).1

/-- The same for items. -/
theorem item_iff : Item ts e ↔ Grammar.Item ts e ∧ SignsApart ts := by
  constructor
  · intro h
    cases h with
    | text content => exact ⟨.text content, by simp⟩
    | expr hsum => exact ⟨.expr (sum_iff.1 hsum).1, (sum_iff.1 hsum).2⟩
  · rintro ⟨h, hapart⟩
    cases h with
    | text content => exact .text content
    | expr hsum => exact .expr (sum_iff.2 ⟨hsum, hapart⟩)

end Expressions

/-! ## Statements and programs -/

section Programs

variable {ts : List Token}

/-- Lists have signs apart exactly if their elements have. -/
theorem commaList_iff {α : Type} {rule narrow : List Token → α → Prop}
    (hnarrow : ∀ us a, narrow us a ↔ rule us a ∧ SignsApart us) {as : List α} :
    CommaList narrow ts as ↔ CommaList rule ts as ∧ SignsApart ts := by
  constructor
  · intro h
    induction h with
    | one ha => exact ⟨.one ((hnarrow _ _).1 ha).1, ((hnarrow _ _).1 ha).2⟩
    | more ha has ih =>
      rcases (hnarrow _ _).1 ha with ⟨hrule, hus⟩
      exact ⟨.more hrule ih.1, (signsApart_append_cons (by simp) (by simp)).2 ⟨hus, ih.2⟩⟩
  · rintro ⟨h, hapart⟩
    induction h with
    | one ha => exact .one ((hnarrow _ _).2 ⟨ha, hapart⟩)
    | more ha has ih =>
      rcases (signsApart_append_cons (by simp) (by simp)).1 hapart with ⟨hus, hvs⟩
      exact .more ((hnarrow _ _).2 ⟨ha, hus⟩) (ih hvs)

/-- There are no signs among names. -/
theorem signsApart_names {xs : List String} (h : CommaList Name ts xs) : SignsApart ts := by
  have hname (us : List Token) (x : String) : Name us x ↔ Name us x ∧ SignsApart us := by
    refine ⟨fun hx => ⟨hx, ?_⟩, fun hx => hx.1⟩
    cases hx
    exact signsApart_singleton _
  exact ((commaList_iff hname).1 h).2

/-- A keyword may stand in front. -/
theorem signsApart_keyword (k : Keyword) : SignsApart (.keyword k :: ts) ↔ SignsApart ts :=
  signsApart_cons (by simp)

/-- Conditions have signs apart exactly if both of their sides and their statements have. -/
theorem signsApart_cond {t : Token} {op : Relop} (hsign : RelationSign t op)
    {us vs : List Token} :
    SignsApart (.keyword .test :: ts ++ t :: us ++ .keyword .consequent :: vs) ↔
      (SignsApart ts ∧ SignsApart us) ∧ SignsApart vs := by
  have ht : t ≠ .plus ∧ t ≠ .minus := by cases hsign <;> simp
  rw [signsApart_append_cons (by simp) (by simp), signsApart_append_cons ht.1 ht.2,
    signsApart_keyword]

/-- The expressions of a statement begin with at most one sign exactly if its signs are apart. -/
theorem statement_iff {s : Stmt} : Statement ts s ↔ Grammar.Statement ts s ∧ SignsApart ts := by
  have hbecomes (x : String) (us : List Token) :
      SignsApart (.keyword .assign :: .identifier x :: .becomes :: us) ↔ SignsApart us := by
    rw [signsApart_keyword, signsApart_cons (by simp), signsApart_cons (by simp)]
  constructor
  · intro h
    induction h with
    | integers hnames =>
      exact ⟨.integers hnames, (signsApart_keyword _).2 (signsApart_names hnames)⟩
    | strings hnames =>
      exact ⟨.strings hnames, (signsApart_keyword _).2 (signsApart_names hnames)⟩
    | assign x hitem =>
      rcases item_iff.1 hitem with ⟨hrule, hapart⟩
      exact ⟨.assign x hrule, (hbecomes x _).2 hapart⟩
    | input x => exact ⟨.input x, by simp [signsApart_keyword]⟩
    | print hitems =>
      rcases (commaList_iff fun us e => item_iff).1 hitems with ⟨hrule, hapart⟩
      exact ⟨.print hrule, (signsApart_keyword _).2 hapart⟩
    | cond hl hsign hr hbody ih =>
      rcases sum_iff.1 hl with ⟨hlhs, hus⟩
      rcases sum_iff.1 hr with ⟨hrhs, hvs⟩
      exact ⟨.cond hlhs hsign hrhs ih.1, (signsApart_cond hsign).2 ⟨⟨hus, hvs⟩, ih.2⟩⟩
    | goto hnum => exact ⟨.goto hnum, by simp [signsApart_keyword]⟩
    | gosub hnum => exact ⟨.gosub hnum, by simp [signsApart_keyword]⟩
    | ret => exact ⟨.ret, by simp⟩
    | stop => exact ⟨.stop, by simp⟩
  · rintro ⟨h, hapart⟩
    induction h with
    | integers hnames => exact .integers hnames
    | strings hnames => exact .strings hnames
    | assign x hitem => exact .assign x (item_iff.2 ⟨hitem, (hbecomes x _).1 hapart⟩)
    | input x => exact .input x
    | print hitems =>
      have hitems' := (signsApart_keyword _).1 hapart
      exact .print ((commaList_iff fun us e => item_iff).2 ⟨hitems, hitems'⟩)
    | cond hl hsign hr hbody ih =>
      rcases (signsApart_cond hsign).1 hapart with ⟨⟨hus, hvs⟩, hws⟩
      exact .cond (sum_iff.2 ⟨hl, hus⟩) hsign (sum_iff.2 ⟨hr, hvs⟩) (ih hws)
    | goto hnum => exact .goto hnum
    | gosub hnum => exact .gosub hnum
    | ret => exact .ret
    | stop => exact .stop

/-- The same for a line, if there is one. -/
theorem optionalLine_iff {here : List Line} :
    OptionalLine ts here ↔ Grammar.OptionalLine ts here ∧ SignsApart ts := by
  constructor
  · intro h
    cases h with
    | blank => exact ⟨.blank, signsApart_nil⟩
    | line hnum hstmt =>
      rcases statement_iff.1 hstmt with ⟨hrule, hapart⟩
      exact ⟨.line hnum hrule, (signsApart_cons (by simp)).2 hapart⟩
  · rintro ⟨h, hapart⟩
    cases h with
    | blank => exact .blank
    | line hnum hstmt =>
      exact .line hnum (statement_iff.2 ⟨hstmt, (signsApart_cons (by simp)).1 hapart⟩)

/-- The same for lines. -/
theorem lines_iff {lines : List Line} :
    Lines ts lines ↔ Grammar.Lines ts lines ∧ SignsApart ts := by
  constructor
  · intro h
    induction h with
    | last hhere => exact ⟨.last (optionalLine_iff.1 hhere).1, (optionalLine_iff.1 hhere).2⟩
    | next hhere hrest ih =>
      rcases optionalLine_iff.1 hhere with ⟨hrule, hus⟩
      exact ⟨.next hrule ih.1, (signsApart_append_cons (by simp) (by simp)).2 ⟨hus, ih.2⟩⟩
  · rintro ⟨h, hapart⟩
    induction h with
    | last hhere => exact .last (optionalLine_iff.2 ⟨hhere, hapart⟩)
    | next hhere hrest ih =>
      rcases (signsApart_append_cons (by simp) (by simp)).1 hapart with ⟨hus, hvs⟩
      exact .next (optionalLine_iff.2 ⟨hhere, hus⟩) (ih hvs)

/-- The same for programs. -/
theorem programRule_iff {program : Program} :
    ProgramRule ts program ↔ Grammar.ProgramRule ts program ∧ SignsApart ts := by
  constructor
  · rintro ⟨hlines⟩
    rcases lines_iff.1 hlines with ⟨hrule, hapart⟩
    exact ⟨.mk hrule, (signsApart_snoc (by simp)).2 hapart⟩
  · rintro ⟨⟨hlines⟩, hapart⟩
    exact .mk (lines_iff.2 ⟨hlines, (signsApart_snoc (by simp)).1 hapart⟩)

end Programs

end SingleSign

end Grammar

open Grammar

/-- A text derives from the grammar with one sign exactly if it is accepted and no plus stands
directly in front of a minus in it; its tree is then that of the derivation. -/
theorem Program.single_sign_iff (text : String) (program : Program) :
    (∃ lexemes : List Lexeme, (TokenStream.ofText text).untilEnd = lexemes.map .ok ∧
      SingleSign.ProgramRule (lexemes.map Lexeme.token) program) ↔
    Program.parse text = .ok program ∧
      ∃ lexemes : List Lexeme, (TokenStream.ofText text).untilEnd = lexemes.map .ok ∧
        SignsApart (lexemes.map Lexeme.token) := by
  constructor
  · rintro ⟨lexemes, hlexemes, hrule⟩
    rcases SingleSign.programRule_iff.1 hrule with ⟨hrule, hapart⟩
    exact ⟨Program.parse_of_derives hlexemes hrule, lexemes, hlexemes, hapart⟩
  · rintro ⟨hparse, lexemes, hlexemes, hapart⟩
    rcases Program.derives_of_parse hparse with ⟨others, hothers, hrule⟩
    obtain rfl : others = lexemes :=
      List.map_injective_iff.2 (fun _ _ => Except.ok.inj) (hothers.symm.trans hlexemes)
    exact ⟨others, hothers, SingleSign.programRule_iff.2 ⟨hrule, hapart⟩⟩

/-- A plus and a minus in front of a number are accepted, but no tree derives from them with one
sign. -/
theorem Program.parse_double_sign :
    Program.parse "10 PRINT +-1" =
        .ok ⟨[⟨10, .print [.binary .sub (.number 0) (.number 1)]⟩]⟩ ∧
      ¬ ∃ (program : Program) (lexemes : List Lexeme),
        (TokenStream.ofText "10 PRINT +-1").untilEnd = lexemes.map .ok ∧
          SingleSign.ProgramRule (lexemes.map Lexeme.token) program := by
  refine ⟨by cbv, ?_⟩
  rintro ⟨program, lexemes, hlexemes, hrule⟩
  have htokens : lexemes.map Lexeme.token =
      [.number "10", .keyword .print, .plus, .minus, .number "1", .endOfInput] := by
    have huntil : (TokenStream.ofText "10 PRINT +-1").untilEnd =
        [⟨.number "10", ⟨1, 1⟩⟩, ⟨.keyword .print, ⟨1, 4⟩⟩, ⟨.plus, ⟨1, 10⟩⟩, ⟨.minus, ⟨1, 11⟩⟩,
          ⟨.number "1", ⟨1, 12⟩⟩, ⟨.endOfInput, ⟨1, 13⟩⟩].map Except.ok := by cbv
    rw [List.map_injective_iff.2 (fun _ _ => Except.ok.inj) (hlexemes.symm.trans huntil)]
    rfl
  have hapart := (SingleSign.programRule_iff.1 hrule).2
  rw [htokens] at hapart
  simp [SignsApart] at hapart

end LineBasic
