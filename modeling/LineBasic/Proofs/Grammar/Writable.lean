import LineBasic.Proofs.Grammar.Acceptance
import LineBasic.Proofs.Token.Spelling

/-!
# The form of parsed programs

The trees that texts can stand for.  Their numbers carry no sign, their names are words in
capitals that are no keywords, and their texts can be quoted on one line and stand only where a
whole item is one.  All of this is read off the derivation of a program and the spellings of the
tokens in it.

Main definitions:

- `IsUnsigned`, `IsName` and `IsQuoted`: the numbers, names and texts of parsed programs.
- `Program.IsWritable`: the form of parsed programs.

Main result:

- `Program.isWritable_of_parse`: every program that a text is has this form.
-/

namespace LineBasic

open Grammar

/-! ## Writable trees -/

/-- A number that can be written without a sign. -/
def IsUnsigned (n : Int16) : Prop :=
  0 ≤ n.toInt ∧ n.toInt ≤ 32767

/-- A capital with capitals and digits behind it, which spell no keyword. -/
structure IsName (x : String) : Prop where
  shape : ∃ c w, x.toList = c :: w ∧ c.isUpper = true ∧
    ∀ d ∈ w, d.isUpper = true ∨ d.isDigit = true
  ne_keyword : ∀ k : Keyword, x ≠ k.spelling

/-- A text without quotes and line ends. -/
def IsQuoted (content : String) : Prop :=
  ∀ c ∈ content.toList, c ≠ '"' ∧ c ≠ '\r' ∧ c ≠ '\n'

/-- No text occurs in an expression, and its numbers and names can be written. -/
def Expr.IsWritable : Expr → Prop
  | number n => IsUnsigned n
  | text _ => False
  | name x => IsName x
  | binary _ lhs rhs => lhs.IsWritable ∧ rhs.IsWritable

/-- An expression is a whole text, or has none in it. -/
def Expr.IsWritableItem : Expr → Prop
  | text content => IsQuoted content
  | e => e.IsWritable

/-- Lists are not empty, texts are whole items, and all numbers, names and texts can be written. -/
def Stmt.IsWritable : Stmt → Prop
  | declare _ names => names ≠ [] ∧ ∀ x ∈ names, IsName x
  | assign name value => IsName name ∧ value.IsWritableItem
  | input name => IsName name
  | print items => items ≠ [] ∧ ∀ e ∈ items, e.IsWritableItem
  | cond lhs _ rhs body => lhs.IsWritable ∧ rhs.IsWritable ∧ body.IsWritable
  | goto target => IsUnsigned target
  | gosub target => IsUnsigned target
  | ret => True
  | stop => True

/-- A numbered statement that can be written. -/
def Line.IsWritable (line : Line) : Prop :=
  IsUnsigned line.number ∧ line.stmt.IsWritable

/-- A program that can be written. -/
def Program.IsWritable (program : Program) : Prop :=
  ∀ line ∈ program.lines, line.IsWritable

/-- An expression without texts may stand wherever an item may. -/
theorem Expr.IsWritable.isWritableItem {e : Expr} (h : e.IsWritable) : e.IsWritableItem := by
  cases e with
  | text content => cases h
  | number n => exact h
  | name x => exact h
  | binary op lhs rhs => exact h

/-! ## Spelled names, texts and numbers -/

/-- Names are in capitals. -/
theorem IsName.upper_eq {x : String} (h : IsName x) : upper x = x := by
  rcases h.shape with ⟨c, w, heq, hc, hw⟩
  apply String.toList_injective
  rw [toList_upper, heq, List.map_cons, toUpper_eq_self (.inl hc),
    List.map_congr_left fun d hd => toUpper_eq_self (hw d hd), List.map_id']

/-- An identifier in capitals is a name. -/
theorem isName_upper {x : String} {w : List Char}
    (h : Token.SpelledAs (.identifier x) w) : IsName (upper x) := by
  generalize htoken : Token.identifier x = t at h
  cases h with
  | @identifier c w halpha halnum hspelling =>
    cases htoken
    refine ⟨⟨c.toUpper, w.map Char.toUpper, by simp, isUpper_toUpper halpha, ?_⟩, hspelling⟩
    rw [List.forall_mem_map]
    exact fun d hd => isUpper_or_isDigit_toUpper (halnum d hd)
  | sign hsign =>
    subst htoken
    simp [signs] at hsign
  | _ => cases htoken

/-- A text that is a token can be quoted. -/
theorem isQuoted_of_spelledAs {content : String} {w : List Char}
    (h : Token.SpelledAs (.text content) w) : IsQuoted content := by
  generalize htoken : Token.text content = t at h
  cases h with
  | text hquotable =>
    cases htoken
    rwa [IsQuoted, String.toList_ofList]
  | sign hsign =>
    subst htoken
    simp [signs] at hsign
  | _ => cases htoken

/-- Numerals have no signs. -/
theorem Grammar.IsNumber.isUnsigned {digits : String} {n : Int16} (h : IsNumber digits n) :
    IsUnsigned n := by
  have hle := h.le
  refine ⟨?_, ?_⟩ <;>
  · rw [h.toInt_eq]
    omega

namespace Grammar

/-! ## Expressions -/

variable {ts : List Token}

/-- Sums can be written. -/
theorem Sum.isWritable {e : Expr} (h : Sum ts e)
    (hspelled : ∀ t ∈ ts, t.HasSpelling) : e.IsWritable := by
  have hzero : IsUnsigned 0 := ⟨by decide, by decide⟩
  refine h.recursion (motive := fun ts e => (∀ t ∈ ts, t.HasSpelling) → e.IsWritable)
    ?name ?number ?parens ?plus ?minus ?binary hspelled
  case name =>
    intro x hspelled
    rcases hspelled _ List.mem_cons_self with ⟨w, hw⟩
    exact isName_upper hw
  case number => exact fun hnum _ => hnum.isUnsigned
  case parens => exact fun ih hspelled => ih fun t ht => hspelled t (by simp [ht])
  case plus => exact fun ih hspelled => ih fun t ht => hspelled t (by simp [ht])
  case minus => exact fun ih hspelled => ⟨hzero, ih fun t ht => hspelled t (by simp [ht])⟩
  case binary =>
    exact fun _ ihl ihr hspelled =>
      ⟨ihl fun t ht => hspelled t (by simp [ht]), ihr fun t ht => hspelled t (by simp [ht])⟩

/-- Items can be written. -/
theorem Item.isWritable {e : Expr} (h : Item ts e)
    (hspelled : ∀ t ∈ ts, t.HasSpelling) : e.IsWritableItem := by
  cases h with
  | text content =>
    rcases hspelled _ List.mem_cons_self with ⟨w, hw⟩
    exact isQuoted_of_spelledAs hw
  | expr hsum => exact (hsum.isWritable hspelled).isWritableItem

/-! ## Statements and programs -/

/-- Lists have elements, and something holds of all of them if it holds of all parts of them. -/
theorem CommaList.forall_mem {α : Type} {rule : List Token → α → Prop} {property : α → Prop}
    {as : List α} (hlist : CommaList rule ts as)
    (h : ∀ us a, us ⊆ ts → rule us a → property a) : as ≠ [] ∧ ∀ a ∈ as, property a := by
  refine ⟨by cases hlist <;> simp, ?_⟩
  induction hlist with
  | one hrule => simpa using h _ _ (List.Subset.refl _) hrule
  | @more us a vs as hrule hrest ih =>
    have hlater : vs ⊆ us ++ .comma :: vs := fun t ht =>
      List.mem_append_right _ (List.mem_cons_of_mem _ ht)
    refine List.forall_mem_cons.2 ⟨h _ _ (List.subset_append_left _ _) hrule, ?_⟩
    exact ih fun ws b hws => h ws b (List.Subset.trans hws hlater)

/-- Identifiers are names. -/
theorem Name.isName {x : String} (h : Name ts x)
    (hspelled : ∀ t ∈ ts, t.HasSpelling) : IsName x := by
  cases h with
  | mk y =>
    rcases hspelled _ List.mem_cons_self with ⟨w, hw⟩
    exact isName_upper hw

/-- Statements can be written. -/
theorem Statement.isWritable {s : Stmt} (h : Statement ts s)
    (hspelled : ∀ t ∈ ts, t.HasSpelling) : s.IsWritable := by
  induction h with
  | integers hnames | strings hnames =>
    exact hnames.forall_mem fun us x hus hname =>
      hname.isName fun t ht => hspelled t (List.mem_cons_of_mem _ (hus ht))
  | @assign us e x hitem =>
    have hname : IsName (upper x) := Name.isName (.mk x) fun t ht => hspelled t (by simp_all)
    exact ⟨hname, hitem.isWritable fun t ht => hspelled t (by simp [ht])⟩
  | input x => exact Name.isName (.mk x) fun t ht => hspelled t (by simp_all)
  | print hitems =>
    exact hitems.forall_mem fun us e hus hitem =>
      hitem.isWritable fun t ht => hspelled t (List.mem_cons_of_mem _ (hus ht))
  | cond hl hsign hr hbody ih =>
    exact ⟨hl.isWritable fun t ht => hspelled t (by simp [ht]),
      hr.isWritable fun t ht => hspelled t (by simp [ht]), ih fun t ht => hspelled t (by simp [ht])⟩
  | goto hnum | gosub hnum => exact hnum.isUnsigned
  | ret | stop => trivial

/-- Lines can be written. -/
theorem Lines.isWritable {lines : List Line} (h : Lines ts lines)
    (hspelled : ∀ t ∈ ts, t.HasSpelling) : ∀ line ∈ lines, line.IsWritable := by
  have hhere {ts : List Token} {here : List Line} (hline : OptionalLine ts here)
      (hspelled : ∀ t ∈ ts, t.HasSpelling) : ∀ line ∈ here, line.IsWritable := by
    cases hline with
    | blank => simp
    | line hnum hrule =>
      intro line hline
      obtain rfl := List.mem_singleton.1 hline
      exact ⟨hnum.isUnsigned,
        hrule.isWritable fun t ht => hspelled t (List.mem_cons_of_mem _ ht)⟩
  induction h with
  | last hline => exact hhere hline hspelled
  | next hline hrest ih =>
    intro line hmem
    rcases List.mem_append.1 hmem with hfirst | hlater
    · exact hhere hline (fun t ht => hspelled t (List.mem_append_left _ ht)) line hfirst
    · exact ih (fun t ht => hspelled t (by simp [ht])) line hlater

end Grammar

/-- All lexemes of a text without faults but the last one are delivered. -/
theorem mem_of_untilError {ds : List Delivery} {final : Lexeme} {lexemes : List Lexeme}
    (h : untilError final ds = lexemes.map .ok) : ∀ l ∈ lexemes.dropLast, .ok l ∈ ds := by
  induction ds generalizing lexemes with
  | nil =>
    have hone := congrArg List.length h
    rw [List.length_map] at hone
    simp [List.eq_nil_of_length_eq_zero (l := lexemes.dropLast) (by simp [← hone, untilError])]
  | cons d later ih =>
    cases lexemes with
    | nil => cases d <;> cases h
    | cons l rest =>
      cases d with
      | error e => cases (List.cons.inj h).1
      | ok first =>
        rcases List.cons.inj h with ⟨hfirst, hrest⟩
        cases hfirst
        have hne : rest ≠ [] := by
          rintro rfl
          cases later with
          | nil => cases hrest
          | cons d later => cases d <;> cases hrest
        rw [List.dropLast_cons_of_ne_nil hne]
        exact List.forall_mem_cons.2
          ⟨List.mem_cons_self, fun m hm => List.mem_cons_of_mem _ (ih hrest m hm)⟩

/-- The tokens of a text without faults can be spelled, up to the end of it. -/
theorem TokenStream.exists_spelledAs_of_untilEnd {text : String} {lexemes : List Lexeme}
    (h : (TokenStream.ofText text).untilEnd = lexemes.map .ok) {ts : List Token} {last : Token}
    (htokens : lexemes.map Lexeme.token = ts ++ [last]) : ∀ t ∈ ts, t.HasSpelling := by
  have hts : ts = lexemes.dropLast.map Lexeme.token := by
    rw [List.map_dropLast, htokens, List.dropLast_concat]
  rw [hts, List.forall_mem_map]
  intro l hl
  rcases exists_matches_of_mem_upcoming (mem_of_untilError h l hl) with ⟨w, hw⟩
  exact ⟨w, Token.matches_iff_spelledAs.1 hw⟩

/-- Every program that a text is can be written. -/
theorem Program.isWritable_of_parse {text : String} {program : Program}
    (h : Program.parse text = .ok program) : program.IsWritable := by
  rcases Program.derives_of_parse h with ⟨lexemes, hlexemes, hrule⟩
  generalize htokens : lexemes.map Lexeme.token = tokens at hrule
  cases hrule with
  | mk hlines => exact hlines.isWritable (TokenStream.exists_spelledAs_of_untilEnd hlexemes htokens)

end LineBasic
