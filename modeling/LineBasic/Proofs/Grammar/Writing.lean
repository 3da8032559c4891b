import LineBasic.Proofs.Grammar.Writable
import LineBasic.Proofs.Token.Writing

/-!
# Writing programs

Every tree of the form that parsed programs have is the tree of a text: its lines in order, with
all operations in parentheses, and with a blank behind each token.  So the programs that texts
stand for are exactly the trees of that form.

Main definitions:

- `Expr.tokens`, `Stmt.tokens`, `Program.tokens`: the tokens that a tree is written with.
- `Program.write`: the text of a program.

Main results:

- `Factor.of_isWritable`, `Statement.of_isWritable`, `Lines.of_isWritable`: the tokens of a tree
  derive it.
- `Program.parse_image`: the trees of texts are those that can be written, and what is written is
  parsed back.
-/

namespace LineBasic

open Grammar

/-! ## The tokens of a tree -/

/-- The sign of an operation as a token. -/
def ArithOp.token : ArithOp → Token
  | add => .plus
  | sub => .minus
  | mul => .times
  | div => .divide

/-- The sign of a relation as a token. -/
def Relop.token : Relop → Token
  | less => .less
  | lessEqual => .lessEqual
  | greater => .greater
  | greaterEqual => .greaterEqual
  | equal => .equal
  | notEqual => .notEqual

/-- The keyword that declares variables of a type. -/
def DeclaredType.keyword : DeclaredType → Keyword
  | integer => .integer
  | string => .string

/-- The digits of a number that has no sign. -/
def numeral (n : Int16) : Token :=
  .number (String.ofList (Nat.toDigits 10 n.toInt.toNat))

/-- The tokens of elements with commas between them. -/
def commaTokens {α : Type} (tokens : α → List Token) : List α → List Token
  | [] => []
  | [a] => tokens a
  | a :: as => tokens a ++ .comma :: commaTokens tokens as

/-- The tokens of an expression, with parentheses around every operation. -/
def Expr.tokens : Expr → List Token
  | number n => [numeral n]
  | text content => [.text content]
  | name x => [.identifier x]
  | binary op lhs rhs =>
    .leftParen :: (lhs.tokens ++ op.token :: rhs.tokens) ++ [.rightParen]

/-- The tokens of a statement. -/
def Stmt.tokens : Stmt → List Token
  | declare type names =>
    .keyword type.keyword :: commaTokens (fun x => [.identifier x]) names
  | assign name value => .keyword .assign :: .identifier name :: .becomes :: value.tokens
  | input name => [.keyword .input, .identifier name]
  | print items => .keyword .print :: commaTokens Expr.tokens items
  | cond lhs op rhs body =>
    .keyword .test :: lhs.tokens ++ op.token :: rhs.tokens ++ .keyword .consequent :: body.tokens
  | goto target => [.keyword .goto, numeral target]
  | gosub target => [.keyword .gosub, numeral target]
  | ret => [.keyword .ret]
  | stop => [.keyword .stop]

/-- The tokens of lines, each closed by a line break. -/
def lineTokens : List Line → List Token
  | [] => []
  | line :: lines => numeral line.number :: line.stmt.tokens ++ .lineBreak :: lineTokens lines

/-- The tokens of a program, without the end of the text. -/
def Program.tokens (program : Program) : List Token :=
  lineTokens program.lines

/-- The text of a program. -/
def Program.write (program : Program) : String :=
  String.ofList (writeTokens program.tokens)

/-! ## The tokens derive the tree -/

/-- The digits of a number have its value. -/
theorem IsUnsigned.isNumber {n : Int16} (h : IsUnsigned n) :
    IsNumber (String.ofList (Nat.toDigits 10 n.toInt.toNat)) n := by
  have hvalue : decimalValue (Nat.toDigits 10 n.toInt.toNat) = n.toInt.toNat :=
    Nat.ofDigitChars_ten_toDigits
  have hle := h.2
  have hnonneg := h.1
  constructor
  · rw [String.toList_ofList, hvalue]
    omega
  · rw [String.toList_ofList, hvalue]
    omega

namespace Grammar

/-- Names are in capitals as they are. -/
theorem Name.of_isName {x : String} (h : IsName x) : Name [.identifier x] x := by
  have hname := Name.mk x
  rwa [h.upper_eq] at hname

/-- Two factors with the sign of an operation between them are a sum. -/
theorem Sum.operation (op : ArithOp) {ts us : List Token} {l r : Expr} (hl : Factor ts l)
    (hr : Factor us r) : Sum (ts ++ op.token :: us) (.binary op l r) := by
  cases op with
  | add => exact hl.term.sum.snoc .plus hr.term
  | sub => exact hl.term.sum.snoc .minus hr.term
  | mul => exact (hl.term.snoc .times hr).sum
  | div => exact (hl.term.snoc .divide hr).sum

/-- The tokens of an expression are a factor. -/
theorem Factor.of_isWritable {e : Expr} (h : e.IsWritable) : Factor e.tokens e := by
  induction e with
  | number n => exact .number (IsUnsigned.isNumber h)
  | text content => cases h
  | name x =>
    have hfactor := Factor.name x
    rwa [IsName.upper_eq h] at hfactor
  | binary op lhs rhs ihl ihr => exact .parens (.operation op (ihl h.1) (ihr h.2))

/-- The tokens of an expression are a sum. -/
theorem Sum.of_isWritable {e : Expr} (h : e.IsWritable) : Sum e.tokens e :=
  (Factor.of_isWritable h).term.sum

/-- The tokens of an item are an item. -/
theorem Item.of_isWritable {e : Expr} (h : e.IsWritableItem) : Item e.tokens e := by
  cases e with
  | text content => exact .text content
  | number | name | binary => exact .expr (Sum.of_isWritable h)

/-- Elements with commas between them are a list. -/
theorem CommaList.of_forall {α : Type} {rule : List Token → α → Prop} {tokens : α → List Token}
    {as : List α} (hne : as ≠ []) (h : ∀ a ∈ as, rule (tokens a) a) :
    CommaList rule (commaTokens tokens as) as := by
  induction as with
  | nil => contradiction
  | cons a as ih =>
    rcases List.forall_mem_cons.1 h with ⟨ha, has⟩
    cases as with
    | nil => exact .one ha
    | cons b bs => exact .more ha (ih (by simp) has)

/-- The sign of a relation is that of the grammar. -/
theorem RelationSign.token (op : Relop) : RelationSign op.token op := by
  cases op <;> constructor

/-- The tokens of a statement derive it. -/
theorem Statement.of_isWritable {s : Stmt} (h : s.IsWritable) : Statement s.tokens s := by
  induction s with
  | declare type names =>
    have hnames := CommaList.of_forall h.1 fun x hx => Name.of_isName (h.2 x hx)
    cases type with
    | integer => exact .integers hnames
    | string => exact .strings hnames
  | assign name value =>
    have hassign := Statement.assign name (Item.of_isWritable h.2)
    rwa [h.1.upper_eq] at hassign
  | input name =>
    have hinput := Statement.input name
    rwa [IsName.upper_eq h] at hinput
  | print items => exact .print (CommaList.of_forall h.1 fun e he => Item.of_isWritable (h.2 e he))
  | cond lhs op rhs body ih =>
    exact .cond (Sum.of_isWritable h.1) (.token op) (Sum.of_isWritable h.2.1) (ih h.2.2)
  | goto target => exact .goto (IsUnsigned.isNumber h)
  | gosub target => exact .gosub (IsUnsigned.isNumber h)
  | ret => exact .ret
  | stop => exact .stop

/-- The tokens of lines derive them; no line stands behind the last line break. -/
theorem Lines.of_isWritable {lines : List Line} (h : ∀ line ∈ lines, line.IsWritable) :
    Lines (lineTokens lines) lines := by
  induction lines with
  | nil => exact .last .blank
  | cons line lines ih =>
    rcases List.forall_mem_cons.1 h with ⟨⟨hnumber, hstmt⟩, hrest⟩
    exact .next (.line hnumber.isNumber (Statement.of_isWritable hstmt)) (ih hrest)

end Grammar

/-! ## The tokens can be spelled -/

/-- Digits spell a number. -/
@[simp] theorem hasSpelling_numeral (n : Int16) : (numeral n).HasSpelling :=
  ⟨_, .number Nat.toDigits_ne_nil fun _ => Nat.isDigit_of_mem_toDigits (by decide) (by decide)⟩

/-- A name spells itself. -/
theorem IsName.hasSpelling {x : String} (h : IsName x) : (Token.identifier x).HasSpelling := by
  rcases h.shape with ⟨c, w, heq, hc, hw⟩
  have hx : x = String.ofList (c :: w) := by rw [← heq, String.ofList_toList]
  refine ⟨c :: w, ?_⟩
  rw [hx]
  refine .identifier (isAlpha_of_isUpper hc)
    (fun d hd => isAlphanum_of_isUpper_or_isDigit (hw d hd)) fun k => ?_
  rw [← hx, h.upper_eq]
  exact h.ne_keyword k

/-- A text that can be quoted is spelled in quotes. -/
theorem IsQuoted.hasSpelling {content : String} (h : IsQuoted content) :
    (Token.text content).HasSpelling := by
  have hspelled := Token.SpelledAs.text h
  rw [String.ofList_toList] at hspelled
  exact ⟨_, hspelled⟩

/-- Keywords spell themselves. -/
@[simp] theorem Token.hasSpelling_keyword (k : Keyword) : (keyword k).HasSpelling :=
  ⟨_, k.spelledAs_spelling⟩

/-- Signs have spellings. -/
theorem Token.hasSpelling_of_mem_signs {t : Token} (h : t ∈ signs.map Prod.fst) :
    t.HasSpelling := by
  rcases List.mem_map.1 h with ⟨⟨t, w⟩, hmem, rfl⟩
  exact ⟨w, .sign hmem⟩

@[simp] theorem Token.hasSpelling_leftParen : leftParen.HasSpelling :=
  hasSpelling_of_mem_signs (by decide)

@[simp] theorem Token.hasSpelling_rightParen : rightParen.HasSpelling :=
  hasSpelling_of_mem_signs (by decide)

@[simp] theorem Token.hasSpelling_becomes : becomes.HasSpelling :=
  hasSpelling_of_mem_signs (by decide)

@[simp] theorem Token.hasSpelling_comma : comma.HasSpelling :=
  hasSpelling_of_mem_signs (by decide)

@[simp] theorem Token.hasSpelling_lineBreak : lineBreak.HasSpelling :=
  hasSpelling_of_mem_signs (by decide)

@[simp] theorem ArithOp.hasSpelling_token (op : ArithOp) : op.token.HasSpelling :=
  Token.hasSpelling_of_mem_signs (by cases op <;> decide)

@[simp] theorem Relop.hasSpelling_token (op : Relop) : op.token.HasSpelling :=
  Token.hasSpelling_of_mem_signs (by cases op <;> decide)

/-- The tokens of expressions can be spelled. -/
theorem Expr.IsWritable.hasSpelling {e : Expr} (h : e.IsWritable) :
    ∀ t ∈ e.tokens, t.HasSpelling := by
  induction e with
  | number n => simp [Expr.tokens]
  | text content => cases h
  | name x => simpa [Expr.tokens] using IsName.hasSpelling h
  | binary op lhs rhs ihl ihr =>
    simpa [Expr.tokens, or_imp, forall_and] using ⟨ihl h.1, ihr h.2⟩

/-- The tokens of items can be spelled. -/
theorem Expr.IsWritableItem.hasSpelling {e : Expr} (h : e.IsWritableItem) :
    ∀ t ∈ e.tokens, t.HasSpelling := by
  cases e with
  | text content => simpa [Expr.tokens] using IsQuoted.hasSpelling h
  | number | name | binary => exact Expr.IsWritable.hasSpelling h

/-- The tokens of a list can be spelled if those of its elements can. -/
theorem hasSpelling_commaTokens {α : Type} {tokens : α → List Token} {as : List α}
    (h : ∀ a ∈ as, ∀ t ∈ tokens a, t.HasSpelling) :
    ∀ t ∈ commaTokens tokens as, t.HasSpelling := by
  induction as with
  | nil => simp [commaTokens]
  | cons a as ih =>
    rcases List.forall_mem_cons.1 h with ⟨ha, has⟩
    cases as with
    | nil => exact ha
    | cons b bs => simpa [commaTokens, or_imp, forall_and] using ⟨ha, ih has⟩

/-- The tokens of statements can be spelled. -/
theorem Stmt.IsWritable.hasSpelling {s : Stmt} (h : s.IsWritable) :
    ∀ t ∈ s.tokens, t.HasSpelling := by
  induction s with
  | declare type names =>
    have hnames : ∀ t ∈ commaTokens (fun x => [Token.identifier x]) names, t.HasSpelling :=
      hasSpelling_commaTokens fun x hx => List.forall_mem_singleton.2 (h.2 x hx).hasSpelling
    simpa [Stmt.tokens] using hnames
  | assign name value =>
    simpa [Stmt.tokens] using ⟨h.1.hasSpelling, h.2.hasSpelling⟩
  | input name => simpa [Stmt.tokens] using IsName.hasSpelling h
  | print items =>
    simpa [Stmt.tokens] using hasSpelling_commaTokens fun e he => (h.2 e he).hasSpelling
  | cond lhs op rhs body ih =>
    simpa [Stmt.tokens, or_imp, forall_and] using
      ⟨h.1.hasSpelling, h.2.1.hasSpelling, ih h.2.2⟩
  | goto | gosub | ret | stop => simp [Stmt.tokens]

/-- The tokens of lines can be spelled. -/
theorem hasSpelling_lineTokens {lines : List Line} (h : ∀ line ∈ lines, line.IsWritable) :
    ∀ t ∈ lineTokens lines, t.HasSpelling := by
  induction lines with
  | nil => simp [lineTokens]
  | cons line lines ih =>
    rcases List.forall_mem_cons.1 h with ⟨⟨-, hstmt⟩, hrest⟩
    simpa [lineTokens, or_imp, forall_and] using ⟨hstmt.hasSpelling, ih hrest⟩

/-! ## What is written is parsed back -/

/-- A program that can be written is parsed back from what is written. -/
theorem Program.parse_write {program : Program} (h : program.IsWritable) :
    Program.parse program.write = .ok program := by
  have hwritten :
      Written (lineTokens program.lines) ([] ++ writeTokens (lineTokens program.lines)) :=
    written_writeTokens (hasSpelling_lineTokens h) (by simp)
  rcases untilError_of_written hwritten (TokenStream.ofText program.write).final .start with
    ⟨lexemes, hlexemes, htokens⟩
  have huntil : (TokenStream.ofText program.write).untilEnd = lexemes.map .ok := by
    rw [← hlexemes]
    simp [TokenStream.untilEnd, TokenStream.ofText, Program.write, Program.tokens]
  refine Program.parse_of_derives huntil ?_
  rw [htokens]
  exact .mk (Lines.of_isWritable h)

example : Program.write ⟨[⟨10, .print [.binary .sub (.name "A") (.number 12), .text "#"]⟩]⟩ =
    "10 PRINT ( A - 12 ) , \"#\" \r\n " := by decide

/-- The programs that texts stand for are those whose numbers carry no sign, whose names are words
in capitals that are no keywords, whose texts can be quoted and are whole items, and whose lists
are not empty.  Each of them is the program of the text that is written for it. -/
theorem Program.parse_image (program : Program) :
    ((∃ text, Program.parse text = .ok program) ↔ program.IsWritable) ∧
      (program.IsWritable ↔ Program.parse program.write = .ok program) := by
  refine ⟨⟨?_, fun h => ⟨_, Program.parse_write h⟩⟩, ⟨Program.parse_write, ?_⟩⟩
  · rintro ⟨text, h⟩
    exact Program.isWritable_of_parse h
  · exact Program.isWritable_of_parse

end LineBasic
