import LineBasic.Program.Basic

/-!
# Program outlines

A program shown as an indented outline: one bracketed tag a line, one tab more for each level
below the root, children in the order of the tree.

Main definitions:

- `Expr.outline`, `Stmt.outline`, `Line.outline`: the outline of a part at a depth.
- `Program.outline`: the outline of a program.
-/

namespace LineBasic

/-- One line of an outline. -/
def outlineTag (depth : Nat) (tag : String) : String :=
  String.ofList (List.replicate depth '\t') ++ "[" ++ tag ++ "]\n"

/-- The outline of an expression whose tag stands at `depth`. -/
def Expr.outline (depth : Nat) : Expr → String
  | number n => outlineTag depth ("NUMBER: " ++ toString n)
  | text content => outlineTag depth ("STRING: \"" ++ content ++ "\"")
  | name x => outlineTag depth ("IDENT: " ++ x)
  | binary op lhs rhs =>
    outlineTag depth "EXPRESSION" ++ outlineTag (depth + 1) ("OP: " ++ op.spelling) ++
      lhs.outline (depth + 1) ++ rhs.outline (depth + 1)

/-- The outline of a statement whose tag stands at `depth`. -/
def Stmt.outline (depth : Nat) : Stmt → String
  | declare type names =>
    outlineTag depth "DECLARATION STMT" ++
      String.join (names.map fun x => outlineTag (depth + 1) (type.spelling ++ ": " ++ x))
  | assign name value =>
    outlineTag depth "LET STMT" ++ outlineTag (depth + 1) ("IDENT: " ++ name) ++
      value.outline (depth + 1)
  | input name => outlineTag depth ("INPUT STMT (" ++ name ++ ")")
  | print items =>
    outlineTag depth "PRINT STMT" ++ String.join (items.map (Expr.outline (depth + 1)))
  | cond lhs op rhs body =>
    outlineTag depth "IF STMT" ++ outlineTag (depth + 1) ("RELOP: " ++ op.spelling) ++
      lhs.outline (depth + 1) ++ rhs.outline (depth + 1) ++ body.outline (depth + 1)
  | goto target => outlineTag depth ("GOTO STMT (" ++ toString target ++ ")")
  | gosub target => outlineTag depth ("GOSUB STMT (" ++ toString target ++ ")")
  | ret => outlineTag depth "RETURN STMT"
  | stop => outlineTag depth "END STMT"

/-- The outline of a numbered line whose tag stands at `depth`. -/
def Line.outline (depth : Nat) (line : Line) : String :=
  outlineTag depth ("LINE " ++ toString line.number) ++ line.stmt.outline (depth + 1)

/-- The outline of a program. -/
def Program.outline (program : Program) : String :=
  outlineTag 0 "PROGRAM" ++ String.join (program.lines.map (Line.outline 1))

end LineBasic
