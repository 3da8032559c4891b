import LineBasic.Proofs.Assembly.Listing
import LineBasic.Proofs.Check.Names
import LineBasic.Proofs.Check.Numbering
import LineBasic.Proofs.Grammar.Spelling
import LineBasic.Proofs.Lowering.Shape
import Mathlib.Data.List.Forall2

/-!
# What generated code refers to

The code of a statement takes the labels of its variables, of its texts, of the line it jumps to,
of routines, and of places that it defines itself or that end its line.  Its texts are in the
pool under the labels that it takes, one for each use, in the order of their uses.

Main definitions:

- `Available`: the labels without a dot that the code of a program may take.
- `Refers`: what code refers to, and the texts that it uses.

Main results:

- `refers_lowerExpr` and `refers_lowerStmt`: the code of expressions and statements.
-/

namespace LineBasic

open Assembly

/-! ## Labels and texts -/

/-- The labels without a dot that the code of a program may take. -/
def Available (scope : Scope) (program : Program) : Label → Prop
  | .line n => n ∈ program.lines.map Line.number
  | .var x => x ∈ scope.symbols.map Symbol.name
  | .literal _ => True
  | .scratch => True
  | .routine _ => True
  | .message _ => False
  | .inner _ => False

section Available

variable (scope : Scope) (program : Program)

@[simp] theorem available_literal (k : Nat) : Available scope program (.literal k) := trivial

@[simp] theorem available_routine (r : Routine) : Available scope program (.routine r) := trivial

end Available

/-- The index of a text that a label stands for. -/
def Assembly.Label.literal? : Label → Option Nat
  | .literal k => some k
  | _ => none

/-- The indices of the texts that instructions take. -/
def literalUses (items : List Item) : List Nat :=
  (mentioned items).filterMap Label.literal?

theorem literalUses_append (xs ys : List Item) :
    literalUses (xs ++ ys) = literalUses xs ++ literalUses ys := by
  rw [literalUses, mentioned_append, List.filterMap_append]
  rfl

/-- Texts are in a pool under their indices. -/
def Holds (pool : LiteralPool) : List Nat → List String → Prop :=
  List.Forall₂ fun k content => pool.texts[k]? = some content

@[simp] theorem holds_nil (pool : LiteralPool) : Holds pool [] [] :=
  .nil

/-- Texts stay in a pool that grows. -/
theorem Holds.mono {pool larger : LiteralPool} (hlarger : ∃ more, larger.texts = pool.texts ++ more)
    {indices : List Nat} {texts : List String} (h : Holds pool indices texts) :
    Holds larger indices texts := by
  rcases hlarger with ⟨more, hmore⟩
  refine List.Forall₂.imp (fun k content hget => ?_) h
  rw [hmore, List.getElem?_append_left (List.getElem?_eq_some_iff.1 hget).1, hget]

/-! ## Code -/

/-- Instructions whose numbers can be read, and dot labels. -/
inductive Assembly.Item.IsCode : Item → Prop where
  | instr {i : Instr} : (∀ n ∈ i.constants, Reads n.render.toList []) → IsCode (.instr i)
  | dot (s : Spot) : IsCode (.label (.inner s))

/-- Code refers to what is available and to dot labels that are its own or end its line; its texts
are in the pool. -/
structure Refers (scope : Scope) (program : Program) (texts : List String) (items : List Item)
    (pool : LiteralPool) : Prop where
  /-- Code consists of instructions and dot labels. -/
  form : ∀ i ∈ items, i.IsCode
  /-- Every label it takes is available, or has a dot. -/
  known : ∀ l ∈ mentioned items, Available scope program l ∨
    ∃ s, l = .inner s ∧ (s = .lineEnd ∨ s ∈ spots items)
  /-- Its texts are those of the labels it takes. -/
  literals : Holds pool (literalUses items) texts

@[simp] theorem reads_decimal (n : Int) : Reads (Numeral.decimal n).render.toList [] :=
  reads_toString n

@[simp] theorem reads_zero : Reads (Numeral.hex 2 0).render.toList [] := by decide

@[simp] theorem reads_least : Reads (Numeral.hex 4 0x8000).render.toList [] := by decide

namespace Refers

variable {scope : Scope} {program : Program} {texts more : List String} {xs ys : List Item}
  {pool larger : LiteralPool}

/-- Instructions have the form of code. -/
theorem form_code {instructions : List Instr}
    (hconstants : ∀ i ∈ instructions, ∀ n ∈ i.constants, Reads n.render.toList []) :
    ∀ i ∈ code instructions, i.IsCode :=
  List.forall_mem_map.2 fun i hi => .instr (hconstants i hi)

/-- Instructions without dot labels. -/
theorem of_code {instructions : List Instr}
    (hconstants : ∀ i ∈ instructions, ∀ n ∈ i.constants, Reads n.render.toList [])
    (hlabels : ∀ l ∈ instructions.flatMap Instr.labels,
      Available scope program l ∨ l = .inner .lineEnd)
    (hliterals : Holds pool ((instructions.flatMap Instr.labels).filterMap Label.literal?) texts) :
    Refers scope program texts (code instructions) pool where
  form := form_code hconstants
  known := by
    intro l hl
    rw [mentioned_code] at hl
    exact (hlabels l hl).imp id fun heq => ⟨.lineEnd, heq, .inl rfl⟩
  literals := by
    rw [literalUses, mentioned_code]
    exact hliterals

/-- Instructions without dot labels and texts. -/
theorem of_plain {instructions : List Instr}
    (hconstants : ∀ i ∈ instructions, ∀ n ∈ i.constants, Reads n.render.toList [])
    (hlabels : ∀ i ∈ instructions, ∀ l ∈ i.labels,
      (Available scope program l ∨ l = .inner .lineEnd) ∧ l.literal? = none) :
    Refers scope program [] (code instructions) pool := by
  have hall : ∀ l ∈ instructions.flatMap Instr.labels,
      (Available scope program l ∨ l = .inner .lineEnd) ∧ l.literal? = none := by
    intro l hl
    rcases List.mem_flatMap.1 hl with ⟨i, hi, hl⟩
    exact hlabels i hi l hl
  refine of_code hconstants (fun l hl => (hall l hl).1) ?_
  rw [List.filterMap_eq_nil_iff.2 fun l hl => (hall l hl).2]
  exact .nil

/-- No code. -/
theorem nil : Refers scope program [] [] pool := by
  have hcode : Refers scope program [] (code []) pool := of_plain (by simp) (by simp)
  exact hcode

/-- Code behind code. -/
theorem append (hxs : Refers scope program texts xs pool)
    (hys : Refers scope program more ys larger)
    (hlarger : ∃ new, larger.texts = pool.texts ++ new) :
    Refers scope program (texts ++ more) (xs ++ ys) larger where
  form := List.forall_mem_append.2 ⟨hxs.form, hys.form⟩
  known := by
    rw [mentioned_append, List.forall_mem_append, spots_append]
    constructor
    · intro l hl
      refine (hxs.known l hl).imp id ?_
      rintro ⟨s, rfl, hs⟩
      exact ⟨s, rfl, hs.imp id (List.mem_append_left _)⟩
    · intro l hl
      refine (hys.known l hl).imp id ?_
      rintro ⟨s, rfl, hs⟩
      exact ⟨s, rfl, hs.imp id (List.mem_append_right _)⟩
  literals := by
    rw [literalUses_append]
    exact List.rel_append (hxs.literals.mono hlarger) hys.literals

/-- Code without texts behind code. -/
theorem append_same (hxs : Refers scope program texts xs pool)
    (hys : Refers scope program [] ys pool) : Refers scope program texts (xs ++ ys) pool := by
  have hall := hxs.append hys ⟨[], (List.append_nil _).symm⟩
  rwa [List.append_nil] at hall

end Refers

/-! ## Expressions -/

section Expressions

variable {scope : Scope} {program : Program}

/-- What an instruction takes as the word of a variable names the variable. -/
@[simp] theorem label?_variableWord (x : String) :
    (variableWord scope x).label? = some (.var x) := by
  unfold variableWord
  split <;> rfl

@[simp] theorem constant?_variableWord (x : String) : (variableWord scope x).constant? = none := by
  unfold variableWord
  split <;> rfl

/-- The code of a division refers to routines and to its own label. -/
theorem refers_divisionCode (safe : Spot) (pool : LiteralPool) :
    Refers scope program [] (divisionCode safe) pool where
  form := by
    rw [divisionCode, List.forall_mem_append, List.forall_mem_cons]
    refine ⟨Refers.form_code ?_, .dot safe, Refers.form_code ?_⟩
    · simp [Instr.constants, Instr.operands]
    · simp [Instr.constants, Instr.operands]
  known := by
    intro l hl
    have hcases : l = .routine .divisionByZero ∨ l = .inner safe ∨
        l = .routine .arithmeticOverflow := by
      simpa [divisionCode, Instr.labels, Instr.operands] using hl
    rcases hcases with rfl | rfl | rfl
    · exact .inl trivial
    · exact .inr ⟨safe, rfl, .inr (by simp [divisionCode])⟩
    · exact .inl trivial
  literals := .nil

/-- The code of an operation refers to routines, and to its own label if it is a division. -/
theorem refers_operation (op : ArithOp) (st : LoweringState) :
    Refers scope program [] ((operation op).run st).1 ((operation op).run st).2.pool := by
  cases op with
  | div => exact refers_divisionCode _ _
  | _ =>
    apply Refers.of_plain
    · simp [Instr.constants, Instr.operands]
    · simp [Instr.labels, Instr.operands, Available, Label.literal?]

/-- A text that code takes is in the pool. -/
theorem holds_intern (pool : LiteralPool) (content : String) :
    Holds (pool.intern content).2 [(pool.intern content).1] [content] :=
  .cons (pool.intern_spec content).1 .nil

/-- The code of an expression refers to its variables and texts. -/
theorem refers_lowerExpr {e : Expr} (hnames : ∀ x ∈ e.names, Available scope program (.var x))
    (st : LoweringState) :
    Refers scope program e.texts ((lowerExpr scope e).run st).1
      ((lowerExpr scope e).run st).2.pool := by
  induction e generalizing st with
  | number n =>
    apply Refers.of_plain
    · simp [Instr.constants, Instr.operands]
    · simp [Instr.labels, Instr.operands]
  | text content =>
    apply Refers.of_code
    · simp [Instr.constants, Instr.operands]
    · simp [Instr.labels, Instr.operands, List.filterMap_cons]
    · exact holds_intern st.pool content
  | name x =>
    apply Refers.of_plain
    · simp [Instr.constants, Instr.operands]
    · simpa [Instr.labels, Instr.operands, Label.literal?, Expr.names] using hnames
  | binary op lhs rhs ihl ihr =>
    rw [Expr.names, List.forall_mem_append] at hnames
    rw [lowerExpr, Lowering.run_bind, Lowering.run_bind, Lowering.run_bind]
    have hsides := (ihl hnames.1 st).append (ihr hnames.2 _)
      (emits_lowerExpr scope rhs _).pool_extends
    have hall := hsides.append (refers_operation op _) (emits_operation op _).pool_extends
    rwa [List.append_nil] at hall

end Expressions

/-! ## Statements -/

section Statements

variable {scope : Scope} {program : Program}

/-- The code of resets refers to the variables. -/
theorem refers_flatMap_lowerReset {names : List String}
    (hnames : ∀ x ∈ names, Available scope program (.var x)) (pool : LiteralPool) :
    Refers scope program [] (names.flatMap (lowerReset scope)) pool := by
  induction names with
  | nil => exact .nil
  | cons x rest ih =>
    rcases List.forall_mem_cons.1 hnames with ⟨hx, hrest⟩
    have hfirst : Refers scope program [] (lowerReset scope x) pool := by
      unfold lowerReset
      split
      · apply Refers.of_plain
        · simp [Instr.constants, Instr.operands, stringSizeOperand]
        · simpa [Instr.labels, Instr.operands, stringSizeOperand, Label.literal?] using hx
      · apply Refers.of_plain
        · simp [Instr.constants, Instr.operands]
        · simpa [Instr.labels, Instr.operands, Label.literal?] using hx
    rw [List.flatMap_cons]
    exact hfirst.append_same (ih hrest)

/-- The code of an assignment refers to its variables and its text. -/
theorem refers_lowerAssign {name : String} {value : Expr}
    (hname : Available scope program (.var name))
    (hvalue : ∀ x ∈ value.names, Available scope program (.var x)) (st : LoweringState) :
    Refers scope program value.texts ((lowerAssign scope name value).run st).1
      ((lowerAssign scope name value).run st).2.pool := by
  cases value with
  | number n =>
    apply Refers.of_plain
    · simp [Instr.constants, Instr.operands]
    · simpa [Instr.labels, Instr.operands, Label.literal?] using hname
  | text content =>
    apply Refers.of_code
    · simp [Instr.constants, Instr.operands, stringSizeOperand]
    · simp [Instr.labels, Instr.operands, List.filterMap_cons, stringSizeOperand, hname]
    · exact holds_intern st.pool content
  | name x =>
    have hx := hvalue x (List.mem_singleton_self x)
    simp only [lowerAssign]
    split
    · apply Refers.of_plain
      · simp [Instr.constants, Instr.operands, stringSizeOperand]
      · simp [Instr.labels, Instr.operands, stringSizeOperand, Label.literal?, hname, hx]
    · apply Refers.of_plain
      · simp [Instr.constants, Instr.operands]
      · simp [Instr.labels, Instr.operands, Label.literal?, hname, hx]
  | binary op lhs rhs =>
    rw [lowerAssign, Lowering.run_bind]
    refine (refers_lowerExpr hvalue st).append_same (Refers.of_plain ?_ ?_)
    · simp [Instr.constants, Instr.operands]
    · simpa [Instr.labels, Instr.operands, Label.literal?] using hname

/-- The code that asks for a value refers to the variable, and to where it asks for a number. -/
theorem refers_lowerInput {name : String} (hname : Available scope program (.var name))
    (pool : LiteralPool) : Refers scope program [] (lowerInput scope name) pool := by
  unfold lowerInput
  split
  · apply Refers.of_plain
    · simp [Instr.constants, Instr.operands, stringSizeOperand, callRoutine]
    · simpa [Instr.labels, Instr.operands, stringSizeOperand, callRoutine, Label.literal?]
        using hname
  · constructor
    · rw [List.cons_append, List.forall_mem_cons, List.forall_mem_append]
      refine ⟨.dot .readNumber, Refers.form_code ?_, Refers.form_code ?_⟩
      · simp [Instr.constants, Instr.operands, stringSizeOperand, callRoutine]
      · simp [Instr.constants, Instr.operands, callRoutine]
    · intro l hl
      have hcases : l = .scratch ∨ (∃ r, l = .routine r) ∨ l = .var name ∨
          l = .inner .readNumber := by
        revert l
        simp [readLine, Instr.labels, Instr.operands, List.filterMap_cons, stringSizeOperand,
          callRoutine]
      rcases hcases with rfl | ⟨r, rfl⟩ | rfl | rfl
      · exact .inl trivial
      · exact .inl trivial
      · exact .inl hname
      · exact .inr ⟨.readNumber, rfl, .inr (by simp)⟩
    · exact holds_nil pool

/-- The code that prints an item refers to its variables and its text. -/
theorem refers_lowerItem {e : Expr} (hnames : ∀ x ∈ e.names, Available scope program (.var x))
    (st : LoweringState) :
    Refers scope program e.texts ((lowerItem scope e).run st).1
      ((lowerItem scope e).run st).2.pool := by
  cases e with
  | number n =>
    apply Refers.of_plain
    · simp [Instr.constants, Instr.operands, callRoutine]
    · simp [Instr.labels, Instr.operands, callRoutine, Label.literal?]
  | text content =>
    apply Refers.of_code
    · simp [Instr.constants, Instr.operands, callRoutine]
    · simp [Instr.labels, Instr.operands, List.filterMap_cons, callRoutine]
    · exact holds_intern st.pool content
  | name x =>
    have hx := hnames x (List.mem_singleton_self x)
    apply Refers.of_plain
    · simp [Instr.constants, Instr.operands, callRoutine]
    · simp [Instr.labels, Instr.operands, callRoutine, Label.literal?, hx]
  | binary op lhs rhs =>
    rw [lowerItem, Lowering.run_bind]
    refine (refers_lowerExpr hnames st).append_same (Refers.of_plain ?_ ?_)
    · simp [Instr.constants, Instr.operands, callRoutine]
    · simp [Instr.labels, Instr.operands, callRoutine, Label.literal?]

/-- The code that prints items refers to their variables and texts. -/
theorem refers_lowerItems {items : List Expr}
    (hnames : ∀ x ∈ items.flatMap Expr.names, Available scope program (.var x))
    (st : LoweringState) :
    Refers scope program (items.flatMap Expr.texts) ((lowerItems scope items).run st).1
      ((lowerItems scope items).run st).2.pool := by
  induction items generalizing st with
  | nil => exact .nil
  | cons e rest ih =>
    rw [List.flatMap_cons, List.forall_mem_append] at hnames
    rw [lowerItems, Lowering.run_bind, Lowering.run_bind, List.flatMap_cons]
    exact (refers_lowerItem hnames.1 st).append (ih hnames.2 _)
      (emits_lowerItems scope rest _).pool_extends

/-- The code of a statement refers to its variables, its texts and its target. -/
theorem refers_lowerStmt {s : Stmt} (hnames : ∀ x ∈ s.names, Available scope program (.var x))
    (htarget : ∀ t, s.target? = some t → Available scope program (.line t))
    (st : LoweringState) :
    Refers scope program s.texts ((lowerStmt scope s).run st).1
      ((lowerStmt scope s).run st).2.pool := by
  induction s generalizing st with
  | declare type names => exact refers_flatMap_lowerReset hnames st.pool
  | assign name value =>
    rcases List.forall_mem_cons.1 hnames with ⟨hname, hvalue⟩
    exact refers_lowerAssign hname hvalue st
  | input name => exact refers_lowerInput (hnames name (List.mem_singleton_self name)) st.pool
  | print items =>
    rw [lowerStmt, Lowering.run_bind]
    refine (refers_lowerItems hnames st).append_same (Refers.of_plain ?_ ?_)
    · simp [Instr.constants, Instr.operands, callRoutine]
    · simp [Instr.labels, Instr.operands, callRoutine, Label.literal?]
  | cond lhs op rhs body ih =>
    rw [Stmt.names, List.forall_mem_append, List.forall_mem_append] at hnames
    rcases hnames with ⟨⟨hl, hr⟩, hbody⟩
    rw [lowerStmt, Lowering.run_bind, Lowering.run_bind, Lowering.run_bind]
    have hsides := (refers_lowerExpr hl st).append (refers_lowerExpr hr _)
      (emits_lowerExpr scope rhs _).pool_extends
    have hjump : Refers scope program []
        (code [.pop .bx, .pop .ax, .cmp .ax .bx, .jump op.negation (.inner .lineEnd)])
        ((lowerExpr scope rhs).run ((lowerExpr scope lhs).run st).2).2.pool := by
      apply Refers.of_plain
      · simp [Instr.constants, Instr.operands]
      · simp [Instr.labels, Instr.operands, Label.literal?]
    have htest := hsides.append_same hjump
    rcases exists_emits_lowerStmt scope body
      ((lowerExpr scope rhs).run ((lowerExpr scope lhs).run st).2).2 with ⟨extra, -, hemits⟩
    exact htest.append (ih hbody htarget _) hemits.pool_extends
  | goto target | gosub target =>
    have hline := htarget target rfl
    apply Refers.of_plain
    · simp [Instr.constants, Instr.operands]
    · simpa [Instr.labels, Instr.operands, Label.literal?] using hline
  | ret | stop =>
    apply Refers.of_plain
    · simp [Instr.constants, Instr.operands, callRoutine]
    · simp [Instr.labels, Instr.operands, callRoutine, Label.literal?]

end Statements

end LineBasic
