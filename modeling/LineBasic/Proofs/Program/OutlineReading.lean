import LineBasic.Proofs.Grammar.Session
import LineBasic.Proofs.Grammar.Writing
import LineBasic.Proofs.Program.Outline
import LineBasic.Proofs.Text.Decimal
import LineBasic.Proofs.Text.Rows

/-!
# Outlines lose nothing

The outline of a program that was read can be read back, whatever its texts are.  No tag has a line
feed in it, so that an outline falls into its lines; each of them has tabs up to the bracket that
opens its tag; the words that a tag begins with tell the tags apart; and the levels give the tree.

Main definitions:

- `Tag.read?`: the tag of a spelling.
- `readLine?` and `readOutline?`: the level and the tag of a line, and those of all lines.
- `Expr.ofNode?`, `Stmt.ofNode?` and `Program.ofForest?`: the trees of nodes.
- `Program.ofOutline?`: the program of an outline.
- `Program.IsReturned`: programs that readers give in some session.

Main results:

- `Tag.read?_spelling`: tags are read back from their spellings.
- `Forest.readOutline?_outline`: levels and tags are read back from outlines.
- `Program.ofForest?_forest`: programs are found again in their nodes.
- `Program.IsWritable.ofOutline?_outline`: programs are read back from their outlines.
- `outline_loses_nothing`: the same for the programs that readers give.
-/

namespace LineBasic

open Grammar ReaderState

/-! ## Spellings of tags -/

/-- The numbers, names and texts in a tag are such as programs can have. -/
def Tag.IsWritable : Tag → Prop
  | line n | goto n | gosub n | number n => IsUnsigned n
  | declared _ name | input name | identifier name => IsName name
  | text content => IsQuoted content
  | _ => True

/-- The words that a tag begins with. -/
def Tag.key : Tag → String
  | program => "PROGRAM"
  | line _ => "LINE "
  | declaration => "DECLARATION STMT"
  | declared type _ => type.spelling
  | assignment => "LET STMT"
  | input _ => "INPUT STMT "
  | print => "PRINT STMT"
  | condition => "IF STMT"
  | relation _ => "RELOP"
  | goto _ => "GOTO STMT "
  | gosub _ => "GOSUB STMT "
  | ret => "RETURN STMT"
  | stop => "END STMT"
  | number _ => "NUMBER"
  | text _ => "STRING"
  | identifier _ => "IDENT"
  | expression => "EXPRESSION"
  | operation _ => "OP"

/-- What stands behind the words that a tag begins with. -/
def Tag.rest : Tag → List Char
  | line n => (toString n).toList
  | declared _ name | identifier name => ':' :: ' ' :: name.toList
  | input name => '(' :: name.toList ++ [')']
  | relation op => ':' :: ' ' :: op.spelling.toList
  | goto target | gosub target => '(' :: (toString target).toList ++ [')']
  | number n => ':' :: ' ' :: (toString n).toList
  | text content => ':' :: ' ' :: '"' :: content.toList ++ ['"']
  | operation op => ':' :: ' ' :: op.spelling.toList
  | _ => []

/-- The relation with a sign. -/
def Relop.ofSpelling? (sign : String) : Option Relop :=
  [less, lessEqual, greater, greaterEqual, equal, notEqual].find? (·.spelling == sign)

/-- The operation with a sign. -/
def ArithOp.ofSpelling? (sign : String) : Option ArithOp :=
  [add, sub, mul, div].find? (·.spelling == sign)

/-- The tag that begins with some words and goes on with other characters. -/
def Tag.ofKey? (key : String) (rest : List Char) : Option Tag :=
  -- what stands behind a colon and a blank, and between brackets
  let value := String.ofList (rest.drop 2)
  let inner := String.ofList rest.tail.dropLast
  match key with
  | "PROGRAM" => some program
  | "LINE " => (literalNumber? (String.ofList rest)).map line
  | "DECLARATION STMT" => some declaration
  | "INTEGER" => some (declared .integer value)
  | "STRING" =>
    if rest[2]? = some '"' then
      some (text (String.ofList (rest.drop 3).dropLast))
    else
      some (declared .string value)
  | "LET STMT" => some assignment
  | "INPUT STMT " => some (input inner)
  | "PRINT STMT" => some print
  | "IF STMT" => some condition
  | "RELOP" => (Relop.ofSpelling? value).map relation
  | "GOTO STMT " => (literalNumber? inner).map goto
  | "GOSUB STMT " => (literalNumber? inner).map gosub
  | "RETURN STMT" => some ret
  | "END STMT" => some stop
  | "NUMBER" => (literalNumber? value).map number
  | "IDENT" => some (identifier value)
  | "EXPRESSION" => some expression
  | "OP" => (ArithOp.ofSpelling? value).map operation
  | _ => none

/-- A character of the words that a tag begins with. -/
def isKeyChar (c : Char) : Bool :=
  c.isUpper || c == ' '

/-- The tag of a spelling. -/
def Tag.read? (spelling : List Char) : Option Tag :=
  ofKey? (String.ofList (spelling.takeWhile isKeyChar)) (spelling.dropWhile isKeyChar)

/-- A number without a sign is read back from its spelling. -/
theorem IsUnsigned.literalNumber?_toString {n : Int16} (h : IsUnsigned n) :
    literalNumber? (toString n) = some n := by
  have hnat : toString n = toString n.toInt.toNat := by
    change toString n.toInt = _
    conv => lhs; rw [← Int.toNat_of_nonneg h.1]
    rfl
  rw [hnat, Nat.toString_eq_ofList_toDigits]
  exact Reader.literalNumber?_eq_some_iff.2 h.isNumber

/-- Digits are no line feeds. -/
theorem IsUnsigned.lineFeed_not_mem {n : Int16} (h : IsUnsigned n) :
    '\n' ∉ (toString n).toList := by
  intro hmem
  exact absurd (isDigit_of_mem_toString_int16 h.1 hmem) (by decide)

/-- A name begins with a capital. -/
theorem IsName.exists_head {x : String} (h : IsName x) :
    ∃ c w, x.toList = c :: w ∧ c.isUpper = true := by
  rcases h.shape with ⟨c, w, hx, hc, -⟩
  exact ⟨c, w, hx, hc⟩

/-- Capitals and digits are no line feeds. -/
theorem IsName.lineFeed_not_mem {x : String} (h : IsName x) : '\n' ∉ x.toList := by
  rcases h.shape with ⟨c, w, hx, hc, hw⟩
  rw [hx]
  intro hmem
  rcases List.mem_cons.1 hmem with rfl | hlater
  · exact absurd hc (by decide)
  · exact absurd (hw _ hlater) (by decide)

namespace Tag

/-- A tag begins with its words, and the rest follows. -/
theorem toList_spelling (t : Tag) : t.spelling.toList = t.key.toList ++ t.rest := by
  cases t with
  | declared type name => cases type <;> simp [spelling, key, rest, DeclaredType.spelling]
  | _ => simp [spelling, key, rest]

/-- The words that a tag begins with are words. -/
theorem isKeyChar_of_mem_key (t : Tag) : ∀ c ∈ t.key.toList, isKeyChar c = true := by
  cases t with
  | declared type name => cases type <;> simp [key, DeclaredType.spelling, isKeyChar, Char.isUpper]
  | _ => simp [key, isKeyChar, Char.isUpper]

/-- Digits are not in words. -/
theorem isKeyChar_of_isDigit {c : Char} (h : c.isDigit = true) : isKeyChar c = false := by
  have hletter : c.isUpper = false := by
    by_contra hupper
    rw [isDigit_eq_false_of_isAlpha (by simp [Char.isAlpha, hupper])] at h
    cases h
  have hblank : c ≠ ' ' := by
    rintro rfl
    exact absurd h (by decide)
  simp [isKeyChar, hletter, hblank]

/-- The rest of a tag does not begin like another word. -/
theorem isKeyChar_head?_rest {t : Tag} (h : t.IsWritable) :
    ∀ c ∈ t.rest.head?, isKeyChar c = false := by
  cases t with
  | line n =>
    exact fun c hc =>
      isKeyChar_of_isDigit (isDigit_of_mem_toString_int16 h.1 (List.mem_of_mem_head? hc))
  | _ => simp [rest, isKeyChar, Char.isUpper]

/-- A tag is found by its words and the rest. -/
theorem ofKey?_key_rest {t : Tag} (h : t.IsWritable) : ofKey? t.key t.rest = some t := by
  cases t with
  | line n | goto n | gosub n | number n =>
    simp [ofKey?, key, rest, IsUnsigned.literalNumber?_toString h]
  | declared type name =>
    cases type with
    | integer => simp [ofKey?, key, rest, DeclaredType.spelling]
    | string =>
      rcases IsName.exists_head h with ⟨c, w, hname, hc⟩
      have hquote : c ≠ '"' := by
        rintro rfl
        exact absurd hc (by decide)
      have hvalue : String.ofList (c :: w) = name := by rw [← hname, String.ofList_toList]
      simp [ofKey?, key, rest, DeclaredType.spelling, hname, hquote, hvalue, -String.ofList_cons]
  | relation op => cases op <;> rfl
  | operation op => cases op <;> rfl
  | _ => simp [ofKey?, key, rest]

/-- Tags are read back from their spellings. -/
theorem read?_spelling {t : Tag} (h : t.IsWritable) : read? t.spelling.toList = some t := by
  have hword := isKeyChar_of_mem_key t
  have hbehind : (t.rest.takeWhile isKeyChar) = [] ∧ t.rest.dropWhile isKeyChar = t.rest := by
    cases hrest : t.rest with
    | nil => exact ⟨rfl, rfl⟩
    | cons c later =>
      have hc : isKeyChar c = false := isKeyChar_head?_rest h c (by rw [hrest]; rfl)
      simp [hc]
  rw [read?, toList_spelling, List.takeWhile_append_of_pos hword,
    List.dropWhile_append_of_pos hword, hbehind.1, hbehind.2, List.append_nil,
    String.ofList_toList, ofKey?_key_rest h]

/-- No tag has a line feed in it. -/
theorem lineFeed_not_mem_spelling {t : Tag} (h : t.IsWritable) : '\n' ∉ t.spelling.toList := by
  rw [toList_spelling, List.mem_append]
  rintro (hkey | hrest)
  · exact absurd (isKeyChar_of_mem_key t _ hkey) (by decide)
  · cases t with
    | line n | goto n | gosub n | number n =>
      exact absurd hrest (by simpa [rest] using IsUnsigned.lineFeed_not_mem h)
    | declared type x | input x | identifier x =>
      exact absurd hrest (by simpa [rest] using IsName.lineFeed_not_mem h)
    | text content => exact absurd hrest (by simpa [rest] using fun hmem => (h _ hmem).2.2 rfl)
    | relation op => cases op <;> simp [rest, Relop.spelling] at hrest
    | operation op => cases op <;> simp [rest, ArithOp.spelling] at hrest
    | _ => cases hrest

end Tag

/-! ## Lines of an outline -/

/-- The characters of a line of an outline, without its line feed. -/
def outlineLine (level : Nat) (t : Tag) : List Char :=
  List.replicate level '\t' ++ '[' :: (t.spelling.toList ++ [']'])

/-- The level and the tag of a line: the number of its tabs, and what stands between its first
bracket and its last. -/
def readLine? (line : List Char) : Option (Nat × Tag) :=
  (Tag.read? (line.dropWhile (· == '\t')).tail.dropLast).map fun t =>
    ((line.takeWhile (· == '\t')).length, t)

/-- The levels and the tags of the lines of an outline. -/
def readLines? : List (List Char) → Option (List (Nat × Tag))
  | [] => some []
  | line :: rest => return (← readLine? line) :: (← readLines? rest)

/-- The levels and the tags of an outline.  Behind its last line feed there is no line. -/
def readOutline? (outline : String) : Option (List (Nat × Tag)) :=
  readLines? (outline.toList.splitOn '\n').dropLast

/-- Lines are read back. -/
theorem readLine?_outlineLine {t : Tag} (h : t.IsWritable) (level : Nat) :
    readLine? (outlineLine level t) = some (level, t) := by
  have htabs : ∀ c ∈ List.replicate level '\t', (c == '\t') = true := by simp
  have hbracket : ('[' == '\t') = false := by decide
  rw [readLine?, outlineLine, List.takeWhile_append_of_pos htabs,
    List.dropWhile_append_of_pos htabs, List.takeWhile_cons_of_neg (by simp),
    List.dropWhile_cons_of_neg (by simp), List.tail_cons, List.dropLast_concat,
    Tag.read?_spelling h, List.append_nil, List.length_replicate, Option.map_some]

/-- All lines are read back. -/
theorem readLines?_map {ls : List (Nat × Tag)} (h : ∀ l ∈ ls, l.2.IsWritable) :
    readLines? (ls.map fun l => outlineLine l.1 l.2) = some ls := by
  induction ls with
  | nil => rfl
  | cons l rest ih =>
    rcases List.forall_mem_cons.1 h with ⟨hl, hrest⟩
    simp [readLines?, readLine?_outlineLine hl, ih hrest]

/-- An outline is its lines, each with a line feed behind it. -/
theorem Forest.toList_outline (f : Forest Tag) (level : Nat) :
    (f.outline level).toList =
      ((f.lines level).map fun l => outlineLine l.1 l.2).flatMap fun line => line ++ ['\n'] := by
  simp [Forest.outline, String.toList_join, List.flatMap_map, outlineTag, outlineLine]

/-- No line has a line feed in it. -/
theorem lineFeed_not_mem_outlineLine {t : Tag} (h : t.IsWritable) (level : Nat) :
    '\n' ∉ outlineLine level t := by
  simp [outlineLine, Tag.lineFeed_not_mem_spelling h]

/-- The levels and the tags of an outline are read back. -/
theorem Forest.readOutline?_outline {f : Forest Tag} (h : f.All Tag.IsWritable) (level : Nat) :
    readOutline? (f.outline level) = some (f.lines level) := by
  have hlines : ∀ line ∈ (f.lines level).map fun l => outlineLine l.1 l.2, '\n' ∉ line :=
    List.forall_mem_map.2 fun l hl => lineFeed_not_mem_outlineLine (h.of_mem_lines hl) l.1
  rw [readOutline?, f.toList_outline, splitOn_flatMap hlines, List.dropLast_concat,
    readLines?_map fun l => h.of_mem_lines]

/-! ## Trees of nodes -/

/-- The expression with a tag and nodes below it. -/
def Expr.ofNode? : Tag → Forest Tag → Option Expr
  | .number n, .empty => some (number n)
  | .text content, .empty => some (text content)
  | .identifier x, .empty => some (name x)
  | .expression, .node (.operation op) .empty (.node ltag lparts (.node rtag rparts .empty)) =>
    return binary op (← ofNode? ltag lparts) (← ofNode? rtag rparts)
  | _, _ => none

/-- The expressions of nodes side by side. -/
def Expr.ofForest? : Forest Tag → Option (List Expr)
  | .empty => some []
  | .node tag parts beside => return (← ofNode? tag parts) :: (← ofForest? beside)

/-- The names of one type that nodes side by side declare. -/
def namesOfForest? (type : DeclaredType) : Forest Tag → Option (List String)
  | .empty => some []
  | .node (.declared type' x) .empty beside =>
    if type' = type then return x :: (← namesOfForest? type beside) else none
  | _ => none

/-- The statement with a tag and nothing below it. -/
def Stmt.ofTag? : Tag → Option Stmt
  | .input x => some (input x)
  | .goto target => some (goto target)
  | .gosub target => some (gosub target)
  | .ret => some ret
  | .stop => some stop
  | _ => none

/-- The statement with a tag and nodes below it. -/
def Stmt.ofNode? : Tag → Forest Tag → Option Stmt
  | tag, .empty => ofTag? tag
  | .declaration, .node (.declared type x) .empty beside =>
    return declare type (x :: (← namesOfForest? type beside))
  | .assignment, .node (.identifier x) .empty (.node tag parts .empty) =>
    return assign x (← Expr.ofNode? tag parts)
  | .print, .node tag parts beside =>
    return print ((← Expr.ofNode? tag parts) :: (← Expr.ofForest? beside))
  | .condition, .node (.relation op) .empty
      (.node ltag lparts (.node rtag rparts (.node tag parts .empty))) =>
    return cond (← Expr.ofNode? ltag lparts) op (← Expr.ofNode? rtag rparts) (← ofNode? tag parts)
  | _, _ => none

/-- The lines of nodes side by side. -/
def Line.ofForest? : Forest Tag → Option (List Line)
  | .empty => some []
  | .node (.line n) (.node tag parts .empty) beside =>
    return ⟨n, ← Stmt.ofNode? tag parts⟩ :: (← ofForest? beside)
  | _ => none

/-- The program of nodes. -/
def Program.ofForest? : Forest Tag → Option Program
  | .node .program lines .empty => return ⟨← Line.ofForest? lines⟩
  | _ => none

/-- An expression is found again in its node. -/
theorem Expr.ofNode?_tag (e : Expr) : ofNode? e.tag e.parts = some e := by
  induction e with
  | binary op lhs rhs ihl ihr =>
    rw [tag, parts, ofNode?, ihl, ihr]
    rfl
  | _ => rfl

/-- Expressions are found again in their nodes. -/
theorem Expr.ofForest?_forest (es : List Expr) : ofForest? (forest es) = some es := by
  induction es with
  | nil => rfl
  | cons e rest ih => simp [forest, ofForest?, ofNode?_tag, ih]

/-- Declared names are found again in their nodes. -/
theorem namesOfForest?_declaredForest (type : DeclaredType) (names : List String) :
    namesOfForest? type (declaredForest type names) = some names := by
  induction names with
  | nil => rfl
  | cons x rest ih => simp [declaredForest, namesOfForest?, ih]

/-- A statement is found again in its node.  The type of a declaration is in the tags of its names,
and there is one at least. -/
theorem Stmt.ofNode?_tag {s : Stmt} (h : s.IsWritable) : ofNode? s.tag s.parts = some s := by
  induction s with
  | declare type names =>
    cases names with
    | nil => exact absurd rfl h.1
    | cons x rest =>
      rw [tag, parts, declaredForest, ofNode?, namesOfForest?_declaredForest]
      rfl
  | assign x value =>
    rw [tag, parts, ofNode?, Expr.ofNode?_tag]
    rfl
  | print items =>
    cases items with
    | nil => exact absurd rfl h.1
    | cons e rest =>
      rw [tag, parts, Expr.forest, ofNode?, Expr.ofNode?_tag, Expr.ofForest?_forest]
      rfl
  | cond lhs op rhs body ih =>
    rw [tag, parts, ofNode?, Expr.ofNode?_tag, Expr.ofNode?_tag, ih h.2.2]
    rfl
  | _ => rfl

/-- Lines are found again in their nodes. -/
theorem Line.ofForest?_forest {lines : List Line} (h : ∀ line ∈ lines, line.IsWritable) :
    ofForest? (forest lines) = some lines := by
  induction lines with
  | nil => rfl
  | cons line rest ih =>
    rcases List.forall_mem_cons.1 h with ⟨hline, hrest⟩
    simp [forest, ofForest?, Stmt.ofNode?_tag hline.2, ih hrest]

/-- Programs are found again in their nodes. -/
theorem Program.ofForest?_forest {program : Program} (h : program.IsWritable) :
    ofForest? program.forest = some program := by
  simp [forest, ofForest?, Line.ofForest?_forest h]

/-! ## Tags of nodes -/

/-- What is in the tags of an item can be written. -/
theorem Expr.IsWritableItem.tags {e : Expr} (h : e.IsWritableItem) :
    e.tag.IsWritable ∧ e.parts.All Tag.IsWritable := by
  induction e with
  | binary op lhs rhs ihl ihr =>
    rcases ihl h.1.isWritableItem with ⟨hltag, hlparts⟩
    rcases ihr h.2.isWritableItem with ⟨hrtag, hrparts⟩
    exact ⟨trivial, trivial, trivial, hltag, hlparts, hrtag, hrparts, trivial⟩
  | _ => exact ⟨h, trivial⟩

/-- What is in the tags of items can be written. -/
theorem Expr.all_forest {es : List Expr} (h : ∀ e ∈ es, e.IsWritableItem) :
    (forest es).All Tag.IsWritable := by
  induction es with
  | nil => trivial
  | cons e rest ih =>
    rcases List.forall_mem_cons.1 h with ⟨he, hrest⟩
    exact ⟨he.tags.1, he.tags.2, ih hrest⟩

/-- What is in the tags of declared names can be written. -/
theorem all_declaredForest {type : DeclaredType} {names : List String}
    (h : ∀ x ∈ names, IsName x) : (declaredForest type names).All Tag.IsWritable := by
  induction names with
  | nil => trivial
  | cons x rest ih =>
    rcases List.forall_mem_cons.1 h with ⟨hx, hrest⟩
    exact ⟨hx, trivial, ih hrest⟩

/-- What is in the tags of a statement can be written. -/
theorem Stmt.IsWritable.tags {s : Stmt} (h : s.IsWritable) :
    s.tag.IsWritable ∧ s.parts.All Tag.IsWritable := by
  induction s with
  | declare type names => exact ⟨trivial, all_declaredForest h.2⟩
  | assign x value => exact ⟨trivial, h.1, trivial, h.2.tags.1, h.2.tags.2, trivial⟩
  | print items => exact ⟨trivial, Expr.all_forest h.2⟩
  | cond lhs op rhs body ih =>
    rcases h.1.isWritableItem.tags with ⟨hltag, hlparts⟩
    rcases h.2.1.isWritableItem.tags with ⟨hrtag, hrparts⟩
    rcases ih h.2.2 with ⟨htag, hparts⟩
    exact ⟨trivial, trivial, trivial, hltag, hlparts, hrtag, hrparts, htag, hparts, trivial⟩
  | _ => exact ⟨h, trivial⟩

/-- What is in the tags of a program can be written. -/
theorem Program.IsWritable.all_forest {program : Program} (h : program.IsWritable) :
    program.forest.All Tag.IsWritable := by
  have hlines {lines : List Line} (hall : ∀ line ∈ lines, line.IsWritable) :
      (Line.forest lines).All Tag.IsWritable := by
    induction lines with
    | nil => trivial
    | cons line rest ih =>
      rcases List.forall_mem_cons.1 hall with ⟨hline, hrest⟩
      exact ⟨hline.1, ⟨hline.2.tags.1, hline.2.tags.2, trivial⟩, ih hrest⟩
  exact ⟨trivial, hlines h, trivial⟩

/-! ## Programs of outlines -/

/-- The program of an outline. -/
def Program.ofOutline? (outline : String) : Option Program := do
  ofForest? (Forest.ofLines (← readOutline? outline))

/-- Programs are read back from their outlines. -/
theorem Program.IsWritable.ofOutline?_outline {program : Program} (h : program.IsWritable) :
    Program.ofOutline? program.outline = some program := by
  rw [ofOutline?, outline_eq, Forest.readOutline?_outline h.all_forest, Option.bind_eq_bind,
    Option.bind_some, Forest.ofLines_lines, ofForest?_forest h]

/-- Programs that a reader of some text gives in some session, also one that goes on after
errors. -/
def Program.IsReturned (program : Program) : Prop :=
  ∃ text s requests, ReaderState.ofText? text = .ok s ∧
    .ok (.program program) ∈ (session requests s).1

/-- The program that a text is, is given for the first request. -/
theorem Program.isReturned_of_parse {text : String} {program : Program}
    (h : Program.parse text = .ok program) : program.IsReturned := by
  rcases Program.parse_eq_ok_iff_run.1 h with ⟨s, hs, u, hrun⟩
  refine ⟨text, s, [.program], hs, ?_⟩
  have hanswer : (Request.program.answer s).1 = .ok (.program program) := by
    rw [Request.answer, Request.reader, EStateM.run_bind, hrun]
    rfl
  rw [← hanswer]
  exact List.mem_singleton_self _

/-- Programs that are given can be written, since all tokens of a text are spelled there. -/
theorem Program.IsReturned.isWritable {program : Program} (h : program.IsReturned) :
    program.IsWritable := by
  rcases h with ⟨text, s, requests, hs, hmem⟩
  rcases calls_of_session requests s with ⟨ds, ls, hcalls⟩
  rcases hcalls.exists_call hmem with ⟨request, t, es, ms, v, hcall, hms⟩
  have hspelled := hcalls.draws.hasSpelling hs
  cases hcall with
  | tree _ _ hderives =>
    have hlines : Lines (ms.map Lexeme.token) program.lines := hderives
    exact hlines.isWritable (List.forall_mem_map.2 fun l hl => hspelled l (hms hl))

/-- Outlines lose nothing.  The outline of a program that was read has one bracketed tag for each
node, before those of the nodes below it and with one tab more than the node above; the program is
read back from it; and no other program that was read has this outline. -/
theorem outline_loses_nothing {program : Program} (h : program.IsReturned) :
    program.outline =
        String.join ((program.forest.lines 0).map fun l => outlineTag l.1 l.2.spelling) ∧
      Program.ofOutline? program.outline = some program ∧
      ∀ other : Program, other.IsReturned → other.outline = program.outline → other = program := by
  have hread := h.isWritable.ofOutline?_outline
  refine ⟨program.outline_eq, hread, fun other hother hsame => ?_⟩
  have hreadOther := hother.isWritable.ofOutline?_outline
  rw [hsame, hread] at hreadOther
  exact (Option.some.inj hreadOther).symm

/-- A text that looks like the end of its tag and the tag of another line is read back as it is. -/
theorem outline_of_text_like_tags :
    ∃ program, Program.parse "10 PRINT \"]\t[LINE 20]\", -A" = .ok program ∧
      program.outline = String.join
        ([(0, "PROGRAM"), (1, "LINE 10"), (2, "PRINT STMT"), (3, "STRING: \"]\t[LINE 20]\""),
          (3, "EXPRESSION"), (4, "OP: -"), (4, "NUMBER: 0"), (4, "IDENT: A")].map fun l =>
            outlineTag l.1 l.2) ∧
      Program.ofOutline? program.outline = some program := by
  have hparse : Program.parse "10 PRINT \"]\t[LINE 20]\", -A" =
      .ok ⟨[⟨10, .print [.text "]\t[LINE 20]", .binary .sub (.number 0) (.name "A")]⟩]⟩ := by
    cbv
  obtain ⟨htags, hread, -⟩ := outline_loses_nothing (Program.isReturned_of_parse hparse)
  exact ⟨_, hparse, htags, hread⟩

end LineBasic
