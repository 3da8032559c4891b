import LineBasic.Proofs.Lowering.LineReferences

/-!
# Prepared code

An instruction that writes to a variable or prints takes its registers from the instructions
directly in front of it, with no label between them, so that control cannot arrive there by a jump.
They are prepared for a variable of the right type: a text is copied to a text variable, and a
word is stored for a number variable.

Main definitions:

- `Instr.targets`: the operands that an instruction writes to.
- `Prepares`: what must stand directly in front of an instruction that writes or prints.
- `Prepared` and `IsPlainCode`: code in which it stands there, and code that needs none of it.

Main results:

- `Prepared.append`: prepared code behind prepared code.
- `prepared_lowerStmt` and `prepared_lowerLines`: the code of well-typed statements and lines.
-/

namespace LineBasic

open Assembly

/-! ## Instructions that write -/

namespace Assembly

/-- The operands that an instruction writes to. -/
def Instr.targets : Instr → List Operand
  | mov dst _ => [dst]
  | add dst _ => [dst]
  | sub dst _ => [dst]
  | xor dst _ => [dst]
  | xchg lhs rhs => [lhs, rhs]
  | pop dst => [dst]
  | inc dst => [dst]
  | dec dst => [dst]
  | neg dst => [dst]
  | _ => []

/-- An operand is in memory. -/
def Operand.isMemory : Operand → Bool
  | memory _ _ => true
  | _ => false

/-- The instruction of an item. -/
def Item.instr? : Item → Option Instr
  | instr i => some i
  | noted i _ => some i
  | _ => none

/-- Instructions that store a word under a label. -/
inductive StoresWord : Instr → Label → Prop where
  | constant {l : Label} {n : Numeral} :
      StoresWord (.mov (.cell l) (.constant (some .word) n)) l
  | register {l : Label} {r : WordReg} : StoresWord (.mov (.cell l) (.wordReg r)) l
  | popped {l : Label} : StoresWord (.pop (.memory (some .word) (.label l))) l

/-- The routines that neither write to variables nor print values. -/
def Routine.isPlain : Routine → Bool
  | readString => false
  | stringToNumber => false
  | printNumber => false
  | printString => false
  | _ => true

/-- Instructions that neither write to memory, the stack apart, nor print values. -/
def Instr.isPlain : Instr → Bool
  | repMovsb => false
  | repStosb => false
  | int _ => false
  | call (.routine r) => r.isPlain
  | i => i.targets.all fun operand => !operand.isMemory

end Assembly

/-! ## Preparation -/

/-- The labels of texts: those of the pool, and text variables. -/
inductive IsTextLabel (symbols : List Symbol) : Label → Prop where
  | literal (k : Nat) : IsTextLabel symbols (.literal k)
  | var {x : String} : ⟨x, .string⟩ ∈ symbols → IsTextLabel symbols (.var x)

/-- Instructions that load a number to be printed. -/
inductive LoadsNumber (symbols : List Symbol) : Instr → Prop where
  | constant (n : Int) : LoadsNumber symbols (.mov .dx (.dec n))
  | cell {x : String} : ⟨x, .integer⟩ ∈ symbols → LoadsNumber symbols (.mov .dx (.cell (.var x)))
  | popped : LoadsNumber symbols (.pop .dx)

/-- What must stand directly in front of an instruction that writes to memory or prints, if the
variables are `symbols`.  Every other instruction needs nothing there. -/
inductive Prepares (symbols : List Symbol) : List Instr → Instr → Prop where
  | copy {src : Label} {x : String} : IsTextLabel symbols src → ⟨x, .string⟩ ∈ symbols →
      Prepares symbols
        [.mov .si (.address src), .mov .di (.address (.var x)), .mov .cx (.dec 32)] .repMovsb
  | clear {x : String} : ⟨x, .string⟩ ∈ symbols →
      Prepares symbols
        [.mov .di (.address (.var x)), .mov .cx (.dec 32), .xor .al .al] .repStosb
  | read {l : Label} : (l = .scratch ∨ ∃ x, l = .var x ∧ ⟨x, .string⟩ ∈ symbols) →
      Prepares symbols [.mov .cx (.dec 32), .mov .dx (.address l)] (.call (.routine .readString))
  | convert {x : String} : ⟨x, .integer⟩ ∈ symbols →
      Prepares symbols [.mov .cx (.address (.var x)), .mov .dx (.address .scratch)]
        (.call (.routine .stringToNumber))
  | printText {src : Label} : IsTextLabel symbols src →
      Prepares symbols [.mov .dx (.address src)] (.call (.routine .printString))
  | printNumber {i : Instr} : LoadsNumber symbols i →
      Prepares symbols [i] (.call (.routine .printNumber))
  | store {i : Instr} {x : String} : StoresWord i (.var x) → ⟨x, .integer⟩ ∈ symbols →
      Prepares symbols [] i
  | plain {i : Instr} : i.isPlain = true → Prepares symbols [] i

/-- In front of each instruction stands what prepares it. -/
def Prepared (symbols : List Symbol) (items : List Item) : Prop :=
  ∀ front behind item i, items = front ++ item :: behind → item.instr? = some i →
    ∃ setup, Prepares symbols setup i ∧ code setup <:+ front

/-- All instructions of the code are plain. -/
def IsPlainCode (items : List Item) : Prop :=
  ∀ item ∈ items, ∀ i, item.instr? = some i → i.isPlain = true

namespace IsPlainCode

variable {xs ys : List Item}

theorem nil : IsPlainCode [] :=
  List.forall_mem_nil _

/-- Plain instructions are plain code. -/
theorem of_code {instructions : List Instr} (h : instructions.all Instr.isPlain = true) :
    IsPlainCode (code instructions) := by
  refine List.forall_mem_map.2 fun i hi j hj => ?_
  cases hj
  exact List.all_eq_true.1 h i hi

/-- Plain code behind plain code. -/
theorem append (hxs : IsPlainCode xs) (hys : IsPlainCode ys) : IsPlainCode (xs ++ ys) :=
  List.forall_mem_append.2 ⟨hxs, hys⟩

/-- A label in front of plain code. -/
theorem cons_label (l : Label) (hxs : IsPlainCode xs) : IsPlainCode (.label l :: xs) :=
  List.forall_mem_cons.2 ⟨by simp [Item.instr?], hxs⟩

end IsPlainCode

namespace Prepared

variable {symbols : List Symbol} {xs ys : List Item}

/-- Code behind code. -/
theorem append (hxs : Prepared symbols xs) (hys : Prepared symbols ys) :
    Prepared symbols (xs ++ ys) := by
  intro front behind item i hsplit hinstr
  rcases List.append_eq_append_iff.1 hsplit with ⟨more, rfl, hbehind⟩ | ⟨more, rfl, hbehind⟩
  · rcases hys _ _ _ _ hbehind hinstr with ⟨setup, hprepares, hsuffix⟩
    exact ⟨setup, hprepares, hsuffix.trans (List.suffix_append xs more)⟩
  · cases more with
    | nil =>
      rcases hys [] _ _ _ hbehind.symm hinstr with ⟨setup, hprepares, hsuffix⟩
      exact ⟨setup, hprepares, hsuffix.trans List.nil_suffix⟩
    | cons first more =>
      rcases List.cons.inj hbehind with ⟨rfl, rfl⟩
      exact hxs _ _ _ _ rfl hinstr

/-- Plain instructions need nothing in front of them. -/
theorem of_plain (h : IsPlainCode xs) : Prepared symbols xs := by
  intro front behind item i hsplit hinstr
  exact ⟨[], .plain (h item (by simp [hsplit]) i hinstr), List.nil_suffix⟩

/-- An instruction behind plain ones that prepare it. -/
theorem of_prepares (setup : List Instr) {i : Instr} (hplain : IsPlainCode (code setup))
    (h : Prepares symbols setup i) : Prepared symbols (code setup ++ [.instr i]) := by
  intro front behind item j hsplit hinstr
  rcases List.append_eq_append_iff.1 hsplit with ⟨more, rfl, hbehind⟩ | ⟨more, hfront, hbehind⟩
  · -- nothing but the instruction itself stands behind the setup
    rcases List.append_eq_singleton_iff.1 hbehind.symm with ⟨rfl, hitem⟩ | ⟨-, hitem⟩
    · cases hitem
      cases hinstr
      exact ⟨setup, h, by simp⟩
    · cases hitem
  · cases more with
    | nil =>
      cases hbehind
      cases hinstr
      exact ⟨setup, h, by simp [hfront]⟩
    | cons first more =>
      rcases List.cons.inj hbehind with ⟨rfl, -⟩
      exact ⟨[], .plain (hplain item (by simp [hfront]) j hinstr), List.nil_suffix⟩

end Prepared

/-! ## Expressions -/

section Code

variable (scope : Scope)

/-- The code of an operation is plain. -/
theorem isPlainCode_operation (op : ArithOp) (st : LoweringState) :
    IsPlainCode ((operation op).run st).1 := by
  cases op with
  | div => exact (IsPlainCode.of_code rfl).append (.cons_label _ (.of_code rfl))
  | _ => exact .of_code rfl

/-- The code of an expression is plain: it leaves its value on the stack. -/
theorem isPlainCode_lowerExpr (e : Expr) (st : LoweringState) :
    IsPlainCode ((lowerExpr scope e).run st).1 := by
  induction e generalizing st with
  | binary op lhs rhs ihl ihr =>
    rw [lowerExpr, Lowering.run_bind, Lowering.run_bind, Lowering.run_bind]
    exact ((ihl st).append (ihr _)).append (isPlainCode_operation op _)
  | _ => exact .of_code rfl

end Code

/-! ## Statements -/

section Variables

variable {scope : Scope} {x : String}

/-- A variable is taken for a text if its type says so. -/
theorem Scope.isString_iff : scope.isString x = true ↔ scope.typeOf? x = some .string :=
  beq_iff_eq

/-- A variable that is not taken for a text holds a number. -/
theorem Scope.IsGlobal.eq_integer (h : scope.IsGlobal) {type : SymbolType}
    (htype : scope.typeOf? x = some type) (hstring : ¬ scope.isString x = true) :
    type = .integer := by
  cases type with
  | void => exact absurd rfl (h.type_ne_void _ (h.typeOf?_eq_some_iff.1 htype))
  | integer => rfl
  | string => exact absurd (Scope.isString_iff.2 htype) hstring

end Variables

section Statements

variable {scope : Scope}

/-- The code that copies a text is prepared if it goes to a text variable. -/
theorem prepared_copyString {symbols : List Symbol} {src : Label} {x : String}
    (hsrc : IsTextLabel symbols src) (hx : ⟨x, .string⟩ ∈ symbols) :
    Prepared symbols (copyString src x) :=
  .of_prepares _ (.of_code rfl) (.copy hsrc hx)

/-- The code of a declaration resets each variable according to its type. -/
theorem prepared_lowerReset (h : scope.IsGlobal) {x : String} (hupper : upper x = x)
    {type : SymbolType} (htype : scope.typeOf? x = some type) :
    Prepared scope.symbols (lowerReset scope x) := by
  have hmem := h.mem_of_typeOf? hupper htype
  unfold lowerReset
  split
  · rename_i hstring
    rw [Scope.isString_iff, htype] at hstring
    cases hstring
    exact .of_prepares [_, _, _] (.of_code rfl) (.clear hmem)
  · rename_i hstring
    rw [h.eq_integer htype hstring] at hmem
    exact .of_prepares [] (.of_code rfl) (.store .constant hmem)

/-- The code of an assignment moves a whole text to a text variable, and a word to any other. -/
theorem prepared_lowerAssign (h : scope.IsGlobal) {x : String} {value : Expr}
    (hcanonical : (Stmt.assign x value).IsCanonical)
    (htyped : (Stmt.assign x value).WellTyped scope) (st : LoweringState) :
    Prepared scope.symbols ((lowerAssign scope x value).run st).1 := by
  rcases hcanonical with ⟨hupper, hitem⟩
  rcases htyped with ⟨type, htype, hvalue⟩
  have hmem := h.mem_of_typeOf? hupper htype
  cases value with
  | number n =>
    cases hvalue
    exact .of_prepares [] (.of_code rfl) (.store .constant hmem)
  | text content =>
    cases hvalue
    exact prepared_copyString (.literal _) hmem
  | name y =>
    have hy := h.mem_of_typeOf? hitem (Scope.require_eq_ok_iff.1 hvalue)
    simp only [lowerAssign]
    split
    · rename_i hstring
      rw [Scope.isString_iff, htype] at hstring
      cases hstring
      exact prepared_copyString (.var hy) hmem
    · rename_i hstring
      rw [h.eq_integer htype hstring] at hmem
      have hload : Prepared scope.symbols (code [.mov .ax (.cell (.var y))]) :=
        .of_plain (.of_code rfl)
      exact hload.append (.of_prepares [] (.of_code rfl) (.store .register hmem))
  | binary op lhs rhs =>
    obtain ⟨rfl, -, -⟩ := Expr.type_binary_eq_ok_iff.1 hvalue
    rw [lowerAssign, Lowering.run_bind]
    refine (Prepared.of_plain (isPlainCode_lowerExpr scope _ st)).append ?_
    exact .of_prepares [] (.of_code rfl) (.store .popped hmem)

/-- The code that reads a line is prepared if the line goes to a text variable, or to where it is
read as a number. -/
theorem prepared_readLine {symbols : List Symbol} {l : Label}
    (hl : l = .scratch ∨ ∃ x, l = .var x ∧ ⟨x, .string⟩ ∈ symbols) :
    Prepared symbols (readLine l) := by
  have hread : Prepared symbols (code [.mov .cx (.dec 32), .mov .dx (.address l)] ++
      [.instr (.call (.routine .readString))]) := .of_prepares _ (.of_code rfl) (.read hl)
  have hmove : Prepared symbols (code [callRoutine .newLine]) := .of_plain (.of_code rfl)
  exact hread.append hmove

/-- The code that asks for a value puts it where its type belongs. -/
theorem prepared_lowerInput (h : scope.IsGlobal) {x : String} (hupper : upper x = x)
    {type : SymbolType} (htype : scope.typeOf? x = some type) :
    Prepared scope.symbols (lowerInput scope x) := by
  have hmem := h.mem_of_typeOf? hupper htype
  unfold lowerInput
  split
  · rename_i hstring
    rw [Scope.isString_iff, htype] at hstring
    cases hstring
    exact prepared_readLine (.inr ⟨x, rfl, hmem⟩)
  · rename_i hstring
    rw [h.eq_integer htype hstring] at hmem
    have hlabel : Prepared scope.symbols [.label (.inner .readNumber)] :=
      .of_plain (.cons_label _ .nil)
    have hconvert : Prepared scope.symbols
        (code [.mov .cx (.address (.var x)), .mov .dx (.address .scratch)] ++
          [.instr (.call (.routine .stringToNumber))]) :=
      .of_prepares _ (.of_code rfl) (.convert hmem)
    have hretry : Prepared scope.symbols
        (code [.cmp .al (.dec 0), .jump .e (.inner .readNumber)]) := .of_plain (.of_code rfl)
    exact hlabel.append ((prepared_readLine (.inl rfl)).append (hconvert.append hretry))

/-- The code of an item prints what has the type of the item. -/
theorem prepared_lowerItem (h : scope.IsGlobal) {e : Expr} (hitem : e.IsItem) {type : SymbolType}
    (htype : e.type scope = .ok type) (st : LoweringState) :
    Prepared scope.symbols ((lowerItem scope e).run st).1 := by
  cases e with
  | number n =>
    exact .of_prepares [_] (.of_code rfl) (.printNumber (.constant n.toInt))
  | text content => exact .of_prepares [_] (.of_code rfl) (.printText (.literal _))
  | name x =>
    have hname := Scope.require_eq_ok_iff.1 htype
    have hmem := h.mem_of_typeOf? hitem hname
    simp only [lowerItem, variableWord]
    split
    · rename_i hstring
      rw [Scope.isString_iff, hname] at hstring
      cases hstring
      exact .of_prepares [_] (.of_code rfl) (.printText (.var hmem))
    · rename_i hstring
      rw [h.eq_integer hname hstring] at hmem
      exact .of_prepares [_] (.of_code rfl) (.printNumber (.cell hmem))
  | binary op lhs rhs =>
    rw [lowerItem, Lowering.run_bind]
    refine (Prepared.of_plain (isPlainCode_lowerExpr scope _ st)).append ?_
    exact .of_prepares [_] (.of_code rfl) (.printNumber .popped)

/-- The code of items prints each by its type. -/
theorem prepared_lowerItems (h : scope.IsGlobal) {items : List Expr}
    (hitems : ∀ e ∈ items, e.IsItem ∧ ∃ type, e.type scope = .ok type) (st : LoweringState) :
    Prepared scope.symbols ((lowerItems scope items).run st).1 := by
  induction items generalizing st with
  | nil => exact .of_plain .nil
  | cons e rest ih =>
    rcases List.forall_mem_cons.1 hitems with ⟨⟨hitem, type, htype⟩, hrest⟩
    rw [lowerItems, Lowering.run_bind, Lowering.run_bind]
    exact (prepared_lowerItem h hitem htype st).append (ih hrest _)

/-- The code of a well-typed statement is prepared. -/
theorem prepared_lowerStmt (h : scope.IsGlobal) {s : Stmt} (hcanonical : s.IsCanonical)
    (htyped : s.WellTyped scope) (st : LoweringState) :
    Prepared scope.symbols ((lowerStmt scope s).run st).1 := by
  induction s generalizing st with
  | declare type names =>
    change Prepared scope.symbols (names.flatMap (lowerReset scope))
    induction names with
    | nil => exact .of_plain .nil
    | cons x rest ih =>
      rcases List.forall_mem_cons.1 hcanonical with ⟨hx, hrest⟩
      rcases List.forall_mem_cons.1 htyped with ⟨hxtype, hresttyped⟩
      rw [List.flatMap_cons]
      exact (prepared_lowerReset h hx hxtype).append (ih hrest hresttyped)
  | assign name value => exact prepared_lowerAssign h hcanonical htyped st
  | input name =>
    rcases htyped with ⟨type, htype⟩
    exact prepared_lowerInput h hcanonical htype
  | print items =>
    rw [lowerStmt, Lowering.run_bind]
    exact (prepared_lowerItems h (fun e he => ⟨hcanonical e he, htyped e he⟩) st).append
      (.of_plain (.of_code rfl))
  | cond lhs op rhs body ih =>
    rw [lowerStmt, Lowering.run_bind, Lowering.run_bind, Lowering.run_bind]
    have hjump : IsPlainCode
        (code [.pop .bx, .pop .ax, .cmp .ax .bx, .jump op.negation (.inner .lineEnd)]) :=
      .of_code rfl
    have hsides := (isPlainCode_lowerExpr scope lhs st).append
      (isPlainCode_lowerExpr scope rhs ((lowerExpr scope lhs).run st).2)
    exact (Prepared.of_plain (hsides.append hjump)).append (ih hcanonical.2.2 htyped.2 _)
  | _ => exact .of_plain (.of_code rfl)

/-- The code of well-typed lines is prepared. -/
theorem prepared_lowerLines (h : scope.IsGlobal) {lines : List Line}
    (hlines : ∀ line ∈ lines, line.stmt.IsCanonical ∧ line.stmt.WellTyped scope)
    (st : LoweringState) : Prepared scope.symbols ((lowerLines scope lines).run st).1 := by
  induction lines generalizing st with
  | nil => exact .of_plain .nil
  | cons line rest ih =>
    rcases List.forall_mem_cons.1 hlines with ⟨⟨hcanonical, htyped⟩, hrest⟩
    have hnone (l : Label) : IsPlainCode [.blank, .label l] := by simp [IsPlainCode, Item.instr?]
    have hend : IsPlainCode [.label (.inner .lineEnd)] := by simp [IsPlainCode, Item.instr?]
    have hbody := (prepared_lowerStmt h hcanonical htyped st).append (.of_plain hend)
    rw [run_lowerLines_cons, run_lowerLine]
    exact ((Prepared.of_plain (hnone (.line line.number))).append hbody).append (ih hrest _)

end Statements

end LineBasic
