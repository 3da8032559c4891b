import LineBasic.Program.Basic
import LineBasic.Text.Letters
import LineBasic.Text.Numeral
import LineBasic.Token.Basic

/-!
# Derivations of the grammar

The grammar of the language as relations between lists of tokens and the trees they stand for.
Nothing here says how tokens are read: a rule holds of a list of tokens if the list can be split
into parts that the rule's components hold of.

    program    ::= { [ line ] LINE-BREAK } [ line ] END
    line       ::= NUMBER statement
    item       ::= TEXT | sum
    sum        ::= [ "+" ] [ "-" ] term { ( "+" | "-" ) term }
    term       ::= factor { ( "*" | "/" ) factor }
    factor     ::= IDENTIFIER | NUMBER | "(" sum ")"

Main definitions:

- `Factor`, `Term`, `Sum`, `Item`: the rules for expressions.
- `Statement`: the rule for statements.
- `ProgramRule`: the rule for whole programs.
- `groupLeft`: how a chain of operations is grouped.

Main results:

- `Term.snoc` and `Sum.snoc`: one more operand behind a term or a sum.
- `Sum.recursion`: what holds of names and numbers, and is kept by signs, parentheses and
  operations, holds of expressions and the tokens that they stand for.
-/

namespace LineBasic.Grammar

/-! ## Signs and numerals -/

/-- A numeral is a number if its decimal value is at most 32767, however many digits it has. -/
structure IsNumber (digits : String) (n : Int16) : Prop where
  le : decimalValue digits.toList ≤ 32767
  toInt_eq : n.toInt = decimalValue digits.toList

/-- The operations between terms. -/
inductive AddSign : Token → ArithOp → Prop where
  | plus : AddSign .plus .add
  | minus : AddSign .minus .sub

/-- The operations between factors. -/
inductive MulSign : Token → ArithOp → Prop where
  | times : MulSign .times .mul
  | divide : MulSign .divide .div

/-- The relations of conditions. -/
inductive RelationSign : Token → Relop → Prop where
  | less : RelationSign .less .less
  | lessEqual : RelationSign .lessEqual .lessEqual
  | greater : RelationSign .greater .greater
  | greaterEqual : RelationSign .greaterEqual .greaterEqual
  | equal : RelationSign .equal .equal
  | notEqual : RelationSign .notEqual .notEqual

/-- The end of the text is no sign of an addition. -/
theorem AddSign.ne_endOfInput {t : Token} {op : ArithOp} (h : AddSign t op) :
    t ≠ .endOfInput := by
  rintro rfl
  cases h

/-- The end of the text is no sign of a multiplication. -/
theorem MulSign.ne_endOfInput {t : Token} {op : ArithOp} (h : MulSign t op) :
    t ≠ .endOfInput := by
  rintro rfl
  cases h

/-- The end of the text is no relation. -/
theorem RelationSign.ne_endOfInput {t : Token} {op : Relop} (h : RelationSign t op) :
    t ≠ .endOfInput := by
  rintro rfl
  cases h

/-- A token that may be left out. -/
inductive Optional (t : Token) : List Token → Prop where
  | absent : Optional t []
  | present : Optional t [t]

/-! ## Chains and lists -/

/-- Any number of operands with a sign before each. -/
inductive Operands (sign : Token → ArithOp → Prop) (operand : List Token → Expr → Prop) :
    List Token → List (ArithOp × Expr) → Prop where
  | nil : Operands sign operand [] []
  | cons {t op us e vs ops} : sign t op → operand us e → Operands sign operand vs ops →
      Operands sign operand (t :: us ++ vs) ((op, e) :: ops)

/-- Operations on a first operand are grouped to the left. -/
def groupLeft (first : Expr) (ops : List (ArithOp × Expr)) : Expr :=
  ops.foldl (fun lhs o => .binary o.1 lhs o.2) first

/-- One or more elements with commas between them. -/
inductive CommaList {α : Type} (element : List Token → α → Prop) :
    List Token → List α → Prop where
  | one {ts a} : element ts a → CommaList element ts [a]
  | more {ts a us as} : element ts a → CommaList element us as →
      CommaList element (ts ++ .comma :: us) (a :: as)

/-! ## Expressions -/

mutual

/-- Operands of a multiplication.  Parentheses leave no trace. -/
inductive Factor : List Token → Expr → Prop where
  | name (x : String) : Factor [.identifier x] (.name (upper x))
  | number {digits n} : IsNumber digits n → Factor [.number digits] (.number n)
  | parens {ts e} : Sum ts e → Factor (.leftParen :: ts ++ [.rightParen]) e

/-- Operands of an addition. -/
inductive Term : List Token → Expr → Prop where
  | chain {ts first us ops} : Factor ts first → Operands MulSign Factor us ops →
      Term (ts ++ us) (groupLeft first ops)

/-- Expressions.  A leading minus takes the first term from zero, and only that; a leading plus
leaves no trace. -/
inductive Sum : List Token → Expr → Prop where
  | plain {ps ts first us ops} : Optional .plus ps → Term ts first →
      Operands AddSign Term us ops → Sum (ps ++ ts ++ us) (groupLeft first ops)
  | negated {ps ts first us ops} : Optional .plus ps → Term ts first →
      Operands AddSign Term us ops →
      Sum (ps ++ .minus :: ts ++ us) (groupLeft (.binary .sub (.number 0) first) ops)

end

/-- Texts and expressions. -/
inductive Item : List Token → Expr → Prop where
  | text (content : String) : Item [.text content] (.text content)
  | expr {ts e} : Sum ts e → Item ts e

/-- Names, which are capitalised. -/
inductive Name : List Token → String → Prop where
  | mk (x : String) : Name [.identifier x] (upper x)

/-! ## Statements and programs -/

/-- Statements.  A condition is followed by exactly one statement. -/
inductive Statement : List Token → Stmt → Prop where
  | integers {ts xs} : CommaList Name ts xs →
      Statement (.keyword .integer :: ts) (.declare .integer xs)
  | strings {ts xs} : CommaList Name ts xs →
      Statement (.keyword .string :: ts) (.declare .string xs)
  | assign {ts e} (x : String) : Item ts e →
      Statement (.keyword .assign :: .identifier x :: .becomes :: ts) (.assign (upper x) e)
  | input (x : String) : Statement [.keyword .input, .identifier x] (.input (upper x))
  | print {ts es} : CommaList Item ts es → Statement (.keyword .print :: ts) (.print es)
  | cond {ts l t op us r vs body} : Sum ts l → RelationSign t op → Sum us r →
      Statement vs body →
      Statement (.keyword .test :: ts ++ t :: us ++ .keyword .consequent :: vs)
        (.cond l op r body)
  | goto {digits n} : IsNumber digits n →
      Statement [.keyword .goto, .number digits] (.goto n)
  | gosub {digits n} : IsNumber digits n →
      Statement [.keyword .gosub, .number digits] (.gosub n)
  | ret : Statement [.keyword .ret] .ret
  | stop : Statement [.keyword .stop] .stop

/-- What may stand between two line breaks: a numbered statement, or nothing. -/
inductive OptionalLine : List Token → List Line → Prop where
  | blank : OptionalLine [] []
  | line {digits n ts s} : IsNumber digits n → Statement ts s →
      OptionalLine (.number digits :: ts) [⟨n, s⟩]

/-- Lines in the order of the text, with line breaks between them. -/
inductive Lines : List Token → List Line → Prop where
  | last {ts here} : OptionalLine ts here → Lines ts here
  | next {ts here us rest} : OptionalLine ts here → Lines us rest →
      Lines (ts ++ .lineBreak :: us) (here ++ rest)

/-- Whole programs, the end of the text included. -/
inductive ProgramRule : List Token → Program → Prop where
  | mk {ts lines} : Lines ts lines → ProgramRule (ts ++ [.endOfInput]) ⟨lines⟩

/-! ## Growing and recursion -/

/-- A factor is a term. -/
theorem Factor.term {ts : List Token} {e : Expr} (h : Factor ts e) : Term ts e := by
  simpa [groupLeft] using Term.chain h .nil

/-- A term is a sum. -/
theorem Term.sum {ts : List Token} {e : Expr} (h : Term ts e) : Sum ts e := by
  simpa [groupLeft] using Sum.plain .absent h .nil

/-- One more operand at the end of a chain. -/
theorem Operands.snoc {sign : Token → ArithOp → Prop} {rule : List Token → Expr → Prop}
    {us : List Token} {ops : List (ArithOp × Expr)} (h : Operands sign rule us ops) {t : Token}
    {op : ArithOp} (hsign : sign t op) {vs : List Token} {e : Expr} (hrule : rule vs e) :
    Operands sign rule (us ++ t :: vs) (ops ++ [(op, e)]) := by
  induction h with
  | nil => simpa using Operands.cons hsign hrule .nil
  | @cons t' op' us' e' vs' ops' hsign' hrule' _ ih =>
    rw [List.append_assoc]
    exact .cons hsign' hrule' ih

/-- The last operation of a chain is the outermost one. -/
theorem groupLeft_snoc (first : Expr) (ops : List (ArithOp × Expr)) (op : ArithOp) (e : Expr) :
    groupLeft first (ops ++ [(op, e)]) = .binary op (groupLeft first ops) e := by
  simp [groupLeft]

/-- A factor behind a term makes a term. -/
theorem Term.snoc {ts : List Token} {l r : Expr} (hl : Term ts l) {t : Token} {op : ArithOp}
    (hsign : MulSign t op) {us : List Token} (hr : Factor us r) :
    Term (ts ++ t :: us) (.binary op l r) := by
  cases hl with
  | chain hfirst hops =>
    rw [← groupLeft_snoc, List.append_assoc]
    exact .chain hfirst (hops.snoc hsign hr)

/-- A term behind a sum makes a sum. -/
theorem Sum.snoc {ts : List Token} {l r : Expr} (hl : Sum ts l) {t : Token} {op : ArithOp}
    (hsign : AddSign t op) {us : List Token} (hr : Term us r) :
    Sum (ts ++ t :: us) (.binary op l r) := by
  cases hl with
  | plain hopt hfirst hops =>
    rw [← groupLeft_snoc, List.append_assoc]
    exact .plain hopt hfirst (hops.snoc hsign hr)
  | negated hopt hfirst hops =>
    rw [← groupLeft_snoc, List.append_assoc]
    exact .negated hopt hfirst (hops.snoc hsign hr)

section

variable {motive : List Token → Expr → Prop}

/-- What is kept when one more operand follows is kept by chains of them, if it holds of the first
operand; the others may have a property of their own. -/
theorem Operands.recursion {sign : Token → ArithOp → Prop} {rule : List Token → Expr → Prop}
    {operand : List Token → Expr → Prop}
    (binary : ∀ {t op us l vs r}, sign t op → motive us l → operand vs r →
      motive (us ++ t :: vs) (.binary op l r)) {ts us : List Token} {first : Expr}
    {ops : List (ArithOp × Expr)} (hops : Operands sign rule us ops) (hfirst : motive ts first)
    (hrule : ∀ vs e, vs.length ≤ us.length → rule vs e → operand vs e) :
    motive (ts ++ us) (groupLeft first ops) := by
  induction hops generalizing ts first with
  | nil => simpa [groupLeft] using hfirst
  | @cons t op us e vs ops hsign he hrest ih =>
    simp only [List.cons_append, List.length_cons, List.length_append] at hrule
    have hone := binary hsign hfirst (hrule us e (by omega) he)
    have hmore := ih hone fun ws r hws => hrule ws r (by omega)
    simpa [groupLeft] using hmore

/-- What holds of names and numbers, and is kept by signs, parentheses and operations, holds of
sums. -/
theorem Sum.recursion (name : ∀ x, motive [.identifier x] (.name (upper x)))
    (number : ∀ {digits n}, IsNumber digits n → motive [.number digits] (.number n))
    (parens : ∀ {ts e}, motive ts e → motive (.leftParen :: ts ++ [.rightParen]) e)
    (plus : ∀ {ts e}, motive ts e → motive (.plus :: ts) e)
    (minus : ∀ {ts e}, motive ts e → motive (.minus :: ts) (.binary .sub (.number 0) e))
    (binary : ∀ {t op us l vs r}, AddSign t op ∨ MulSign t op → motive us l → motive vs r →
      motive (us ++ t :: vs) (.binary op l r)) {ts : List Token} {e : Expr} (h : Sum ts e) :
    motive ts e := by
  -- a factor can hold a sum again, but a shorter one
  induction hlen : ts.length using Nat.strongRecOn generalizing ts e with
  | ind n ih =>
    subst hlen
    have hfactor : ∀ us e, us.length ≤ ts.length → Factor us e → motive us e := by
      intro us e hus hrule
      cases hrule with
      | name x => exact name x
      | number hnum => exact number hnum
      | @parens vs e hsum =>
        simp only [List.cons_append, List.length_cons, List.length_append] at hus
        exact parens (ih vs.length (by omega) hsum rfl)
    have hterm : ∀ us e, us.length ≤ ts.length → Term us e → motive us e := by
      intro us e hus hrule
      cases hrule with
      | chain hfirst hops =>
        rw [List.length_append] at hus
        exact hops.recursion (fun hsign => binary (.inr hsign)) (hfactor _ _ (by omega) hfirst)
          fun ws e hws => hfactor ws e (by omega)
    have hsigned {ps us : List Token} {e : Expr} (hopt : Optional .plus ps) (h : motive us e) :
        motive (ps ++ us) e := by
      cases hopt with
      | absent => exact h
      | present => exact plus h
    cases h with
    | plain hopt hfirst hops =>
      simp only [List.length_append] at hterm
      rw [List.append_assoc]
      exact hsigned hopt (hops.recursion (fun hsign => binary (.inl hsign))
        (hterm _ _ (by omega) hfirst) fun ws e hws => hterm ws e (by omega))
    | negated hopt hfirst hops =>
      simp only [List.length_append, List.length_cons] at hterm
      rw [List.append_assoc]
      exact hsigned hopt (hops.recursion (fun hsign => binary (.inl hsign))
        (minus (hterm _ _ (by omega) hfirst)) fun ws e hws => hterm ws e (by omega))

end

end LineBasic.Grammar
