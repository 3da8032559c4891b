import LineBasic.Proofs.Check.Typing
import LineBasic.Proofs.Grammar.Writable

/-!
# The spelling of parsed programs

The names that a program declares are made of letters and digits only, its texts can be quoted on
one line, and the numbers of its lines carry no sign.

Main definitions:

- `Program.texts`: the texts of a program, one entry for each use.
- `Program.Spelled`: how numbers, names and texts are spelled.

Main result:

- `Program.spelled_of_parse`: every program that a text is is spelled in this way.
-/

namespace LineBasic

/-! ## Uses of texts -/

/-- The texts in an expression, from left to right. -/
def Expr.texts : Expr → List String
  | number _ => []
  | text content => [content]
  | name _ => []
  | binary _ lhs rhs => lhs.texts ++ rhs.texts

/-- The texts in a statement, from left to right. -/
def Stmt.texts : Stmt → List String
  | assign _ value => value.texts
  | print items => items.flatMap Expr.texts
  | cond lhs _ rhs body => lhs.texts ++ rhs.texts ++ body.texts
  | _ => []

/-- The texts of a program, one entry for each use. -/
def Program.texts (program : Program) : List String :=
  program.lines.flatMap fun line => line.stmt.texts

/-- Where no text may occur, there is none. -/
theorem Expr.IsWritable.texts_eq {e : Expr} (h : e.IsWritable) : e.texts = [] := by
  induction e with
  | number n => rfl
  | text content => cases h
  | name x => rfl
  | binary op lhs rhs ihl ihr => rw [texts, ihl h.1, ihr h.2, List.append_nil]

/-- The texts of items can be quoted. -/
theorem Expr.IsWritableItem.isQuoted_of_mem {e : Expr} (h : e.IsWritableItem) {content : String}
    (hcontent : content ∈ e.texts) : IsQuoted content := by
  cases e with
  | text other =>
    obtain rfl := List.mem_singleton.1 hcontent
    exact h
  | number | name | binary =>
    rw [Expr.IsWritable.texts_eq h] at hcontent
    cases hcontent

/-- The texts of statements can be quoted. -/
theorem Stmt.IsWritable.isQuoted_of_mem {s : Stmt} (h : s.IsWritable) {content : String}
    (hcontent : content ∈ s.texts) : IsQuoted content := by
  induction s with
  | assign name value => exact h.2.isQuoted_of_mem hcontent
  | print items =>
    rcases List.mem_flatMap.1 hcontent with ⟨e, he, hcontent⟩
    exact (h.2 e he).isQuoted_of_mem hcontent
  | cond lhs op rhs body ih =>
    rw [texts, h.1.texts_eq, h.2.1.texts_eq] at hcontent
    exact ih h.2.2 hcontent
  | _ => cases hcontent

/-- What a statement declares has a name in capitals. -/
theorem Stmt.IsWritable.exists_isName {s : Stmt} (h : s.IsWritable) {symbol : Symbol}
    (hsymbol : symbol ∈ s.declarations) : ∃ x, IsName x ∧ symbol.name = upper x := by
  induction s with
  | declare type names =>
    rcases List.mem_map.1 hsymbol with ⟨x, hx, rfl⟩
    exact ⟨x, h.2 x hx, rfl⟩
  | cond lhs op rhs body ih => exact ih h.2.2 hsymbol
  | _ => cases hsymbol

/-! ## Programs -/

/-- How a program is spelled. -/
structure Program.Spelled (program : Program) : Prop where
  /-- Lines have no signs in front of their numbers. -/
  number_nonneg : ∀ line ∈ program.lines, 0 ≤ line.number.toInt
  /-- Names are made of letters and digits. -/
  isAlphanum : ∀ symbol ∈ declarations program.lines, ∀ c ∈ symbol.name.toList,
    c.isAlphanum = true
  /-- Texts can be quoted. -/
  isQuotable : ∀ content ∈ program.texts, ∀ c ∈ content.toList, isQuotable c = true

/-- Names are made of letters and digits. -/
theorem IsName.isAlphanum {x : String} (h : IsName x) : ∀ c ∈ x.toList, c.isAlphanum = true := by
  rcases h.shape with ⟨c, w, heq, hc, hw⟩
  rw [heq]
  exact List.forall_mem_cons.2 ⟨isAlphanum_of_isUpper_or_isDigit (.inl hc),
    fun d hd => isAlphanum_of_isUpper_or_isDigit (hw d hd)⟩

/-- Every program that a text is has numbers without signs, names of letters and digits, and texts
that can be quoted. -/
theorem Program.spelled_of_parse {text : String} {program : Program}
    (h : Program.parse text = .ok program) : program.Spelled := by
  have hwritable := Program.isWritable_of_parse h
  constructor
  · exact fun line hline => (hwritable line hline).1.1
  · intro symbol hsymbol
    rcases List.mem_flatMap.1 hsymbol with ⟨line, hline, hdeclared⟩
    rcases (hwritable line hline).2.exists_isName hdeclared with ⟨x, hx, hname⟩
    rw [hname, hx.upper_eq]
    exact hx.isAlphanum
  · intro content hcontent c hc
    rcases List.mem_flatMap.1 hcontent with ⟨line, hline, hused⟩
    exact isQuotable_iff.2 ((hwritable line hline).2.isQuoted_of_mem hused c hc)

end LineBasic
