import LineBasic.Program.Outline
import Mathlib.Data.List.TakeWhile

/-!
# The tree in an outline

An outline has one tag for each node of a tree, each node before those below it, and one tab more
for each level.  The levels are enough to find the tree again: below a node is what follows it on
deeper levels, and beside it what follows from there.

Main definitions:

- `Forest`: trees of tags, side by side.
- `Forest.lines`: the tags of a forest with their levels, in the order of the outline.
- `Forest.ofLines`: the forest of tags and levels.
- `Tag`: what the outline says of a node.
- `Program.forest`: the nodes of a program.

Main results:

- `Forest.ofLines_lines`: a forest is found again from its lines.
- `Program.outline_eq`: the outline of a program is that of its nodes.
-/

namespace LineBasic

/-! ## Forests -/

/-- Trees side by side: the tag of the first one, the trees below it, and the trees beside it. -/
inductive Forest (α : Type) where
  | empty
  | node (tag : α) (below beside : Forest α)
deriving DecidableEq, Repr

namespace Forest

variable {α : Type}

/-- The tags of a forest whose roots are on a level, each with its level and before those below
it. -/
def lines (level : Nat) : Forest α → List (Nat × α)
  | empty => []
  | node tag below beside => (level, tag) :: (below.lines (level + 1) ++ beside.lines level)

/-- Something holds of all tags of a forest. -/
def All (P : α → Prop) : Forest α → Prop
  | empty => True
  | node tag below beside => P tag ∧ below.All P ∧ beside.All P

/-- What follows a tag on deeper levels is below it, and the rest is beside it. -/
def ofLines : List (Nat × α) → Forest α
  | [] => empty
  | (level, tag) :: later =>
    node tag (ofLines (later.takeWhile fun l => level < l.1))
      (ofLines (later.dropWhile fun l => level < l.1))
termination_by ls => ls.length
decreasing_by
  · exact Nat.lt_succ_of_le (List.takeWhile_sublist _).length_le
  · exact Nat.lt_succ_of_le (List.dropWhile_sublist _).length_le

/-- No tag is on a level above the roots. -/
theorem le_of_mem_lines {f : Forest α} {level : Nat} {l : Nat × α} (h : l ∈ f.lines level) :
    level ≤ l.1 := by
  induction f generalizing level with
  | empty => cases h
  | node tag below beside ihbelow ihbeside =>
    rcases List.mem_cons.1 h with rfl | hlater
    · exact Nat.le_refl _
    · rcases List.mem_append.1 hlater with hbelow | hbeside
      · exact Nat.le_of_succ_le (ihbelow hbelow)
      · exact ihbeside hbeside

/-- The first tag is that of a root. -/
theorem level_getElem_zero {f : Forest α} {level : Nat} (hpos : 0 < (f.lines level).length) :
    (f.lines level)[0].1 = level := by
  cases f with
  | empty => exact absurd hpos (Nat.lt_irrefl 0)
  | node tag below beside => rfl

/-- A forest is found again from its lines. -/
theorem ofLines_lines (f : Forest α) (level : Nat) : ofLines (f.lines level) = f := by
  induction f generalizing level with
  | empty => rw [lines, ofLines]
  | node tag below beside ihbelow ihbeside =>
    have hbelow : ∀ l ∈ below.lines (level + 1), decide (level < l.1) = true :=
      fun l hl => decide_eq_true (le_of_mem_lines hl)
    -- the trees beside a node begin on its own level
    have hbeside (hpos : 0 < (beside.lines level).length) :
        ¬ decide (level < (beside.lines level)[0].1) = true := by
      rw [level_getElem_zero hpos, decide_eq_true_iff]
      exact Nat.lt_irrefl level
    rw [lines, ofLines, List.takeWhile_append_of_pos hbelow, List.dropWhile_append_of_pos hbelow,
      List.takeWhile_eq_nil_iff.2 hbeside, List.dropWhile_eq_self_iff.2 hbeside, List.append_nil,
      ihbelow, ihbeside]

/-- What holds of all tags holds of those in the lines. -/
theorem All.of_mem_lines {P : α → Prop} {f : Forest α} (h : f.All P) {level : Nat} {l : Nat × α}
    (hl : l ∈ f.lines level) : P l.2 := by
  induction f generalizing level with
  | empty => cases hl
  | node tag below beside ihbelow ihbeside =>
    rcases h with ⟨htag, hbelow, hbeside⟩
    rcases List.mem_cons.1 hl with rfl | hlater
    · exact htag
    · rcases List.mem_append.1 hlater with hmem | hmem
      · exact ihbelow hbelow hmem
      · exact ihbeside hbeside hmem

end Forest

/-! ## Tags -/

/-- What the outline says of a node. -/
inductive Tag where
  | program
  | line (n : Int16)
  | declaration
  | declared (type : DeclaredType) (name : String)
  | assignment
  | input (name : String)
  | print
  | condition
  | relation (op : Relop)
  | goto (target : Int16)
  | gosub (target : Int16)
  | ret
  | stop
  | number (n : Int16)
  | text (content : String)
  | identifier (name : String)
  | expression
  | operation (op : ArithOp)
deriving DecidableEq, Repr

/-- How a tag is written. -/
def Tag.spelling : Tag → String
  | program => "PROGRAM"
  | line n => "LINE " ++ toString n
  | declaration => "DECLARATION STMT"
  | declared type name => type.spelling ++ ": " ++ name
  | assignment => "LET STMT"
  | input name => "INPUT STMT (" ++ name ++ ")"
  | print => "PRINT STMT"
  | condition => "IF STMT"
  | relation op => "RELOP: " ++ op.spelling
  | goto target => "GOTO STMT (" ++ toString target ++ ")"
  | gosub target => "GOSUB STMT (" ++ toString target ++ ")"
  | ret => "RETURN STMT"
  | stop => "END STMT"
  | number n => "NUMBER: " ++ toString n
  | text content => "STRING: \"" ++ content ++ "\""
  | identifier name => "IDENT: " ++ name
  | expression => "EXPRESSION"
  | operation op => "OP: " ++ op.spelling

/-- The outline of a forest whose roots are on a level. -/
def Forest.outline (level : Nat) (f : Forest Tag) : String :=
  String.join ((f.lines level).map fun l => outlineTag l.1 l.2.spelling)

@[simp] theorem Forest.outline_empty (level : Nat) :
    Forest.outline level (.empty : Forest Tag) = "" :=
  rfl

@[simp] theorem Forest.outline_node (level : Nat) (tag : Tag) (below beside : Forest Tag) :
    Forest.outline level (.node tag below beside) =
      outlineTag level tag.spelling ++ below.outline (level + 1) ++ beside.outline level := by
  simp only [Forest.outline, Forest.lines, List.map_cons, List.map_append, String.join_cons,
    String.join_append, String.append_assoc]

/-! ## Programs -/

/-- The tag of an expression. -/
def Expr.tag : Expr → Tag
  | number n => .number n
  | text content => .text content
  | name x => .identifier x
  | binary _ _ _ => .expression

/-- The nodes below an expression. -/
def Expr.parts : Expr → Forest Tag
  | binary op lhs rhs =>
    .node (.operation op) .empty (.node lhs.tag lhs.parts (.node rhs.tag rhs.parts .empty))
  | _ => .empty

/-- The nodes of expressions side by side. -/
def Expr.forest : List Expr → Forest Tag
  | [] => .empty
  | e :: rest => .node e.tag e.parts (forest rest)

/-- The nodes of the names that are declared. -/
def declaredForest (type : DeclaredType) : List String → Forest Tag
  | [] => .empty
  | x :: rest => .node (.declared type x) .empty (declaredForest type rest)

/-- The tag of a statement. -/
def Stmt.tag : Stmt → Tag
  | declare _ _ => .declaration
  | assign _ _ => .assignment
  | input name => .input name
  | print _ => .print
  | cond _ _ _ _ => .condition
  | goto target => .goto target
  | gosub target => .gosub target
  | ret => .ret
  | stop => .stop

/-- The nodes below a statement. -/
def Stmt.parts : Stmt → Forest Tag
  | declare type names => declaredForest type names
  | assign name value => .node (.identifier name) .empty (.node value.tag value.parts .empty)
  | print items => Expr.forest items
  | cond lhs op rhs body =>
    .node (.relation op) .empty (.node lhs.tag lhs.parts
      (.node rhs.tag rhs.parts (.node body.tag body.parts .empty)))
  | _ => .empty

/-- The nodes of lines side by side. -/
def Line.forest : List Line → Forest Tag
  | [] => .empty
  | line :: rest =>
    .node (.line line.number) (.node line.stmt.tag line.stmt.parts .empty) (forest rest)

/-- The nodes of a program. -/
def Program.forest (program : Program) : Forest Tag :=
  .node .program (Line.forest program.lines) .empty

/-- The outline of an expression is its tag and what is below it. -/
theorem Expr.outline_eq (e : Expr) (level : Nat) :
    e.outline level = outlineTag level e.tag.spelling ++ e.parts.outline (level + 1) := by
  induction e generalizing level with
  | binary op lhs rhs ihl ihr =>
    simp only [Expr.outline, ihl, ihr, tag, parts, Forest.outline_node, Forest.outline_empty,
      String.append_empty, String.append_assoc, Tag.spelling]
  | _ =>
    simp only [Expr.outline, tag, parts, Forest.outline_empty, String.append_empty, Tag.spelling]

/-- The outline of items is that of their nodes. -/
theorem Expr.outline_forest (es : List Expr) (level : Nat) :
    String.join (es.map (Expr.outline level)) = (Expr.forest es).outline level := by
  induction es with
  | nil => rfl
  | cons e rest ih =>
    rw [List.map_cons, String.join_cons, ih, e.outline_eq, forest, Forest.outline_node]

/-- The outline of declared names is that of their nodes. -/
theorem outline_declaredForest (type : DeclaredType) (names : List String) (level : Nat) :
    String.join (names.map fun x => outlineTag level (type.spelling ++ ": " ++ x)) =
      (declaredForest type names).outline level := by
  induction names with
  | nil => rfl
  | cons x rest ih =>
    rw [List.map_cons, String.join_cons, ih, declaredForest, Forest.outline_node,
      Forest.outline_empty, String.append_empty, Tag.spelling]

/-- The outline of a statement is its tag and what is below it. -/
theorem Stmt.outline_eq (s : Stmt) (level : Nat) :
    s.outline level = outlineTag level s.tag.spelling ++ s.parts.outline (level + 1) := by
  induction s generalizing level with
  | declare type names => rw [Stmt.outline, outline_declaredForest, tag, parts, Tag.spelling]
  | print items => rw [Stmt.outline, Expr.outline_forest, tag, parts, Tag.spelling]
  | assign name value =>
    simp only [Stmt.outline, Expr.outline_eq, tag, parts, Forest.outline_node,
      Forest.outline_empty, String.append_empty, String.append_assoc, Tag.spelling]
  | cond lhs op rhs body ih =>
    simp only [Stmt.outline, Expr.outline_eq, ih, tag, parts, Forest.outline_node,
      Forest.outline_empty, String.append_empty, String.append_assoc, Tag.spelling]
  | _ =>
    simp only [Stmt.outline, tag, parts, Forest.outline_empty, String.append_empty, Tag.spelling]

/-- The outline of lines is that of their nodes. -/
theorem Line.outline_forest (lines : List Line) (level : Nat) :
    String.join (lines.map (Line.outline level)) = (Line.forest lines).outline level := by
  induction lines with
  | nil => rfl
  | cons line rest ih =>
    simp only [List.map_cons, String.join_cons, ih, Line.outline, Stmt.outline_eq, forest,
      Forest.outline_node, Forest.outline_empty, String.append_empty, Tag.spelling]

/-- The outline of a program is that of its nodes. -/
theorem Program.outline_eq (program : Program) : program.outline = program.forest.outline 0 := by
  simp only [Program.outline, Line.outline_forest, forest, Forest.outline_node,
    Forest.outline_empty, String.append_empty, Tag.spelling]

end LineBasic
