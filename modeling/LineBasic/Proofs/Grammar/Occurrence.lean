import LineBasic.Proofs.Grammar.Derivation

/-!
# Tokens in programs

The tokens that can occur in a program, and those that can occur within one of its lines.

Main definitions:

- `Token.CanOccur`: tokens that occur in programs.
- `Token.StandsInLine`: tokens that occur between two line breaks.

Main results:

- `Grammar.OptionalLine.standsInLine`: what occurs in lines.
- `Grammar.Lines.canOccur`: what occurs in programs.
-/

namespace LineBasic

/-- All tokens but the end of the text and numerals that are too large occur in programs. -/
def Token.CanOccur : Token → Prop
  | endOfInput => False
  | number digits => decimalValue digits.toList ≤ 32767
  | _ => True

/-- A line break does not stand within a line. -/
def Token.StandsInLine (t : Token) : Prop :=
  t.CanOccur ∧ t ≠ .lineBreak

namespace Grammar

variable {ts : List Token}

/-- A numeral that is not too large stands in lines. -/
theorem IsNumber.standsInLine {digits : String} {n : Int16} (h : IsNumber digits n) :
    (Token.number digits).StandsInLine :=
  ⟨h.le, by simp⟩

/-- Everything in an expression stands in a line. -/
theorem Sum.standsInLine {e : Expr} (h : Sum ts e) : ∀ t ∈ ts, t.StandsInLine := by
  refine h.recursion (motive := fun ts _ => ∀ t ∈ ts, t.StandsInLine)
    ?name ?number ?parens ?plus ?minus ?binary
  case name => exact fun x => by simp [Token.StandsInLine, Token.CanOccur]
  case number => exact fun hnum => List.forall_mem_singleton.2 hnum.standsInLine
  case parens =>
    exact fun ih => by simpa [Token.StandsInLine, Token.CanOccur, or_imp, forall_and] using ih
  case plus => exact fun ih => List.forall_mem_cons.2 ⟨⟨trivial, by simp⟩, ih⟩
  case minus => exact fun ih => List.forall_mem_cons.2 ⟨⟨trivial, by simp⟩, ih⟩
  case binary =>
    intro t op us l vs r hsign hl hr
    have ht : t.StandsInLine := by
      rcases hsign with hadd | hmul
      · cases hadd <;> exact ⟨trivial, by simp⟩
      · cases hmul <;> exact ⟨trivial, by simp⟩
    exact List.forall_mem_append.2 ⟨hl, List.forall_mem_cons.2 ⟨ht, hr⟩⟩

/-- Everything in an item stands in a line. -/
theorem Item.standsInLine {e : Expr} (h : Item ts e) : ∀ t ∈ ts, t.StandsInLine := by
  cases h with
  | text content => simp [Token.StandsInLine, Token.CanOccur]
  | expr hsum => exact hsum.standsInLine

/-- Everything in a list stands in a line if everything in its elements does. -/
theorem CommaList.standsInLine {α : Type} {rule : List Token → α → Prop} {as : List α}
    (h : CommaList rule ts as) (hrule : ∀ {us a}, rule us a → ∀ t ∈ us, t.StandsInLine) :
    ∀ t ∈ ts, t.StandsInLine := by
  induction h with
  | one ha => exact hrule ha
  | more ha has ih =>
    exact List.forall_mem_append.2 ⟨hrule ha, List.forall_mem_cons.2 ⟨⟨trivial, by simp⟩, ih⟩⟩

/-- Everything in a name stands in a line. -/
theorem Name.standsInLine {x : String} (h : Name ts x) : ∀ t ∈ ts, t.StandsInLine := by
  cases h with
  | mk y => simp [Token.StandsInLine, Token.CanOccur]

/-- Everything in a statement stands in a line. -/
theorem Statement.standsInLine {s : Stmt} (h : Statement ts s) : ∀ t ∈ ts, t.StandsInLine := by
  have hkeyword (k : Keyword) : (Token.keyword k).StandsInLine := ⟨trivial, by simp⟩
  induction h with
  | integers hnames | strings hnames =>
    exact List.forall_mem_cons.2 ⟨hkeyword _, hnames.standsInLine Name.standsInLine⟩
  | assign x hitem =>
    have hname : (Token.identifier x).StandsInLine := ⟨trivial, by simp⟩
    have hbecomes : Token.becomes.StandsInLine := ⟨trivial, by simp⟩
    simpa [hkeyword, hname, hbecomes] using hitem.standsInLine
  | input x | ret | stop => simp [Token.StandsInLine, Token.CanOccur]
  | print hitems =>
    exact List.forall_mem_cons.2 ⟨hkeyword _, hitems.standsInLine Item.standsInLine⟩
  | @cond ts l t op us r vs body hl hsign hr hbody ih =>
    have ht : t.StandsInLine := by cases hsign <;> exact ⟨trivial, by simp⟩
    simpa [hkeyword, or_imp, forall_and] using ⟨hl.standsInLine, ht, hr.standsInLine, ih⟩
  | goto hnum | gosub hnum => simpa [hkeyword] using hnum.standsInLine

/-- Everything between two line breaks stands in a line. -/
theorem OptionalLine.standsInLine {here : List Line} (h : OptionalLine ts here) :
    ∀ t ∈ ts, t.StandsInLine := by
  cases h with
  | blank => simp
  | line hnum hstmt => exact List.forall_mem_cons.2 ⟨hnum.standsInLine, hstmt.standsInLine⟩

/-- Everything in the lines of a program can occur. -/
theorem Lines.canOccur {lines : List Line} (h : Lines ts lines) : ∀ t ∈ ts, t.CanOccur := by
  induction h with
  | last hhere => exact fun t ht => (hhere.standsInLine t ht).1
  | next hhere hrest ih =>
    refine List.forall_mem_append.2 ⟨fun t ht => (hhere.standsInLine t ht).1, ?_⟩
    exact List.forall_mem_cons.2 ⟨trivial, ih⟩

end Grammar

end LineBasic
