import LineBasic.Proofs.Assembly.Relabelling
import LineBasic.Proofs.Lowering.Closed
import LineBasic.Proofs.Machine.Capitals

/-!
# Code in capitals

The code of a program names variables as they are spelled, while storage is under their names in
capitals.  In capitals the code is the same but for the labels of the variables; the texts are the
same only if all names are in capitals, and so are the names that have storage.

Main definitions:

- `capitalLabel`: the label of a variable in capitals.
- `variableUses`: the variables whose labels code takes.

Main results:

- `run_lowerStmt_capitals`: the code of a statement.
- `mem_variableUses_lowerStmt_iff`: the variables in the code of a statement.
- `letter_case_of_trees`: what letter case makes of a program's runs and code.
-/

namespace LineBasic

open Assembly Machine

/-! ## Labels of variables -/

/-- The label of a variable in capitals, and any other label as it is. -/
def capitalLabel : Label → Label
  | .var x => .var (upper x)
  | l => l

/-- Labels keep their lengths. -/
theorem keepsLengths_capitalLabel : KeepsLengths capitalLabel := by
  intro l
  cases l with
  | var x => simp [capitalLabel, Label.render, length_upper]
  | _ => rfl

/-- A label stays if it is none of a variable, or that of one in capitals. -/
theorem capitalLabel_eq_self_iff {l : Label} :
    capitalLabel l = l ↔ ∀ x, l = .var x → upper x = x := by
  cases l with
  | var x => simp [capitalLabel]
  | _ => simp [capitalLabel]

/-- The variable that a label belongs to. -/
def Assembly.Label.varName? : Label → Option String
  | .var x => some x
  | _ => none

theorem Assembly.Label.varName?_eq_some_iff {l : Label} {x : String} :
    l.varName? = some x ↔ l = .var x := by
  cases l <;> simp [varName?]

/-- The variables whose labels code takes. -/
def variableUses (items : List Item) : List String :=
  (mentioned items).filterMap Label.varName?

theorem mem_variableUses_iff {items : List Item} {x : String} :
    x ∈ variableUses items ↔ .var x ∈ mentioned items := by
  simp [variableUses, Label.varName?_eq_some_iff]

@[simp] theorem variableUses_append (xs ys : List Item) :
    variableUses (xs ++ ys) = variableUses xs ++ variableUses ys := by
  simp [variableUses]

@[simp] theorem variableUses_label (l : Label) (items : List Item) :
    variableUses (.label l :: items) = variableUses items := rfl

@[simp] theorem variableUses_code (instructions : List Instr) :
    variableUses (code instructions) =
      (instructions.flatMap Instr.labels).filterMap Label.varName? := by
  rw [variableUses, mentioned_code]

/-! ## Code in capitals -/

section Lowering

variable (scope : Scope)

/-- Code with the labels of its variables in capitals. -/
def capitalCode (items : List Item) : List Item :=
  items.map (Item.relabel capitalLabel)

@[simp] theorem capitalCode_append (xs ys : List Item) :
    capitalCode (xs ++ ys) = capitalCode xs ++ capitalCode ys :=
  List.map_append

@[simp] theorem isString_upper (x : String) : scope.isString (upper x) = scope.isString x := by
  simp [Scope.isString]

/-- The word of a variable in capitals. -/
theorem variableWord_upper (x : String) :
    variableWord scope (upper x) = (variableWord scope x).relabel capitalLabel := by
  unfold variableWord
  rw [isString_upper]
  split <;> rfl

/-- The code of an operation has no variables. -/
theorem capitalCode_operation (op : ArithOp) (st : LoweringState) :
    capitalCode ((operation op).run st).1 = ((operation op).run st).1 := by
  cases op <;> rfl

/-- The code of an expression in capitals. -/
theorem run_lowerExpr_capitals (e : Expr) (st : LoweringState) :
    (lowerExpr scope (e.rename .capitals)).run st =
      (capitalCode ((lowerExpr scope e).run st).1, ((lowerExpr scope e).run st).2) := by
  induction e generalizing st with
  | number n => rfl
  | text content => rfl
  | name x =>
    change (code [.mov .ax (variableWord scope (upper x)), .push .ax], st) = _
    rw [variableWord_upper]
    rfl
  | binary op lhs rhs ihl ihr =>
    rw [Expr.rename, lowerExpr, lowerExpr]
    simp only [Lowering.run_bind, ihl, ihr]
    refine Prod.ext ?_ rfl
    change _ ++ _ ++ _ = capitalCode (_ ++ _ ++ _)
    rw [capitalCode_append, capitalCode_append, capitalCode_operation]

/-- The code of resets in capitals. -/
theorem flatMap_lowerReset_upper (names : List String) :
    (names.map upper).flatMap (lowerReset scope) =
      capitalCode (names.flatMap (lowerReset scope)) := by
  induction names with
  | nil => rfl
  | cons x rest ih =>
    have hfirst : lowerReset scope (upper x) = capitalCode (lowerReset scope x) := by
      unfold lowerReset
      rw [isString_upper]
      split <;> rfl
    rw [List.map_cons, List.flatMap_cons, List.flatMap_cons, ih, hfirst, capitalCode_append]

/-- The code of an assignment in capitals. -/
theorem run_lowerAssign_capitals (name : String) (value : Expr) (st : LoweringState) :
    (lowerAssign scope (upper name) (value.rename .capitals)).run st =
      (capitalCode ((lowerAssign scope name value).run st).1,
        ((lowerAssign scope name value).run st).2) := by
  cases value with
  | number n => rfl
  | text content => rfl
  | name x =>
    simp only [Expr.rename, lowerAssign, isString_upper]
    split <;> rfl
  | binary op lhs rhs =>
    have hvalue := run_lowerExpr_capitals scope (.binary op lhs rhs) st
    rw [Expr.rename] at hvalue
    rw [Expr.rename, lowerAssign, lowerAssign]
    simp only [Lowering.run_bind, hvalue]
    refine Prod.ext ?_ rfl
    change _ ++ _ = capitalCode (_ ++ _)
    rw [capitalCode_append]
    rfl

/-- The code of a printed item in capitals. -/
theorem run_lowerItem_capitals (e : Expr) (st : LoweringState) :
    (lowerItem scope (e.rename .capitals)).run st =
      (capitalCode ((lowerItem scope e).run st).1, ((lowerItem scope e).run st).2) := by
  cases e with
  | number n => rfl
  | text content => rfl
  | name x =>
    change (printOperand (variableWord scope (upper x))
      (if scope.isString (upper x) then .printString else .printNumber), st) = _
    rw [variableWord_upper, isString_upper]
    rfl
  | binary op lhs rhs =>
    have hvalue := run_lowerExpr_capitals scope (.binary op lhs rhs) st
    rw [Expr.rename] at hvalue
    rw [Expr.rename, lowerItem, lowerItem]
    simp only [Lowering.run_bind, hvalue]
    refine Prod.ext ?_ rfl
    change _ ++ _ = capitalCode (_ ++ _)
    rw [capitalCode_append]
    rfl

/-- The code of printed items in capitals. -/
theorem run_lowerItems_capitals (items : List Expr) (st : LoweringState) :
    (lowerItems scope (items.map (Expr.rename .capitals))).run st =
      (capitalCode ((lowerItems scope items).run st).1, ((lowerItems scope items).run st).2) := by
  induction items generalizing st with
  | nil => rfl
  | cons e rest ih =>
    rw [List.map_cons, lowerItems, lowerItems]
    simp only [Lowering.run_bind, run_lowerItem_capitals, ih]
    refine Prod.ext ?_ rfl
    change _ ++ _ = capitalCode (_ ++ _)
    rw [capitalCode_append]

/-- The code of a statement in capitals. -/
theorem run_lowerStmt_capitals (s : Stmt) (st : LoweringState) :
    (lowerStmt scope (s.rename .capitals)).run st =
      (capitalCode ((lowerStmt scope s).run st).1, ((lowerStmt scope s).run st).2) := by
  induction s generalizing st with
  | declare type names => exact Prod.ext (flatMap_lowerReset_upper scope names) rfl
  | assign name value => exact run_lowerAssign_capitals scope name value st
  | input name =>
    change (lowerInput scope (upper name), st) = (capitalCode (lowerInput scope name), st)
    unfold lowerInput
    rw [isString_upper]
    split <;> rfl
  | print items =>
    rw [Stmt.rename, lowerStmt, lowerStmt]
    simp only [Lowering.run_bind, run_lowerItems_capitals]
    refine Prod.ext ?_ rfl
    change _ ++ _ = capitalCode (_ ++ _)
    rw [capitalCode_append]
    rfl
  | cond lhs op rhs body ih =>
    rw [Stmt.rename, lowerStmt, lowerStmt]
    simp only [Lowering.run_bind, run_lowerExpr_capitals, ih]
    refine Prod.ext ?_ rfl
    change _ ++ _ ++ _ ++ _ = capitalCode (_ ++ _ ++ _ ++ _)
    rw [capitalCode_append, capitalCode_append, capitalCode_append]
    rfl
  | goto | gosub | ret | stop => rfl

/-- The code of lines in capitals. -/
theorem run_lowerLines_capitals (lines : List Line) (st : LoweringState) :
    (lowerLines scope (lines.map (Line.rename .capitals))).run st =
      (capitalCode ((lowerLines scope lines).run st).1, ((lowerLines scope lines).run st).2) := by
  induction lines generalizing st with
  | nil => rfl
  | cons line rest ih =>
    have hline : (lowerLine scope (line.rename .capitals)).run st =
        (capitalCode ((lowerLine scope line).run st).1, ((lowerLine scope line).run st).2) := by
      rw [lowerLine, lowerLine]
      simp only [Lowering.run_bind, Line.rename, run_lowerStmt_capitals]
      refine Prod.ext ?_ rfl
      change _ :: _ :: _ ++ _ = capitalCode (_ :: _ :: _ ++ _)
      rw [capitalCode_append]
      rfl
    rw [List.map_cons, lowerLines, lowerLines]
    simp only [Lowering.run_bind, hline, ih]
    refine Prod.ext ?_ rfl
    change _ ++ _ = capitalCode (_ ++ _)
    rw [capitalCode_append]

/-! ## The variables of code -/

/-- The variables in the code of an expression are its names. -/
theorem variableUses_lowerExpr (e : Expr) (st : LoweringState) :
    variableUses ((lowerExpr scope e).run st).1 = e.names := by
  induction e generalizing st with
  | number n => rfl
  | text content => rfl
  | name x =>
    change variableUses (code [.mov .ax (variableWord scope x), .push .ax]) = [x]
    unfold variableWord
    split <;> rfl
  | binary op lhs rhs ihl ihr =>
    have hoperation (m : LoweringState) : variableUses ((operation op).run m).1 = [] := by
      cases op <;> rfl
    rw [lowerExpr, Lowering.run_bind, Lowering.run_bind, Lowering.run_bind]
    change variableUses (_ ++ _ ++ _) = _
    rw [variableUses_append, variableUses_append, ihl, ihr, hoperation, List.append_nil]
    rfl

/-- The variables in the code of resets are those that are reset. -/
theorem variableUses_flatMap_lowerReset (names : List String) :
    variableUses (names.flatMap (lowerReset scope)) = names := by
  induction names with
  | nil => rfl
  | cons x rest ih =>
    have hfirst : variableUses (lowerReset scope x) = [x] := by
      unfold lowerReset
      split <;> rfl
    rw [List.flatMap_cons, variableUses_append, hfirst, ih]
    rfl

/-- The variables in the code of an assignment. -/
theorem mem_variableUses_lowerAssign_iff {name x : String} {value : Expr} {st : LoweringState} :
    x ∈ variableUses ((lowerAssign scope name value).run st).1 ↔ x ∈ name :: value.names := by
  cases value with
  | number n =>
    change x ∈ [name] ↔ x ∈ name :: []
    rfl
  | text content =>
    change x ∈ [name] ↔ x ∈ name :: []
    rfl
  | name y =>
    simp only [lowerAssign]
    split
    · change x ∈ [y, name] ↔ x ∈ [name, y]
      simp [or_comm]
    · change x ∈ [y, name] ↔ x ∈ [name, y]
      simp [or_comm]
  | binary op lhs rhs =>
    rw [lowerAssign, Lowering.run_bind]
    change x ∈ variableUses (_ ++ _) ↔ _
    rw [variableUses_append, variableUses_lowerExpr, List.mem_append, List.mem_cons, or_comm]
    change x ∈ [name] ∨ _ ↔ _
    rw [List.mem_singleton]

/-- The variables in the code of printed items are the names in them. -/
theorem variableUses_lowerItems (items : List Expr) (st : LoweringState) :
    variableUses ((lowerItems scope items).run st).1 = items.flatMap Expr.names := by
  induction items generalizing st with
  | nil => rfl
  | cons e rest ih =>
    have hfirst : variableUses ((lowerItem scope e).run st).1 = e.names := by
      cases e with
      | number n => rfl
      | text content => rfl
      | name x =>
        change variableUses (printOperand (variableWord scope x) _) = [x]
        unfold variableWord
        split <;> rfl
      | binary op lhs rhs =>
        rw [lowerItem, Lowering.run_bind]
        change variableUses (_ ++ _) = _
        rw [variableUses_append, variableUses_lowerExpr]
        exact List.append_nil _
    rw [lowerItems, Lowering.run_bind, Lowering.run_bind, List.flatMap_cons]
    change variableUses (_ ++ _) = _
    rw [variableUses_append, hfirst, ih]

/-- The variables in the code of a statement are its names. -/
theorem mem_variableUses_lowerStmt_iff {x : String} {s : Stmt} {st : LoweringState} :
    x ∈ variableUses ((lowerStmt scope s).run st).1 ↔ x ∈ s.names := by
  induction s generalizing st with
  | declare type names =>
    change x ∈ variableUses (names.flatMap (lowerReset scope)) ↔ x ∈ names
    rw [variableUses_flatMap_lowerReset]
  | assign name value => exact mem_variableUses_lowerAssign_iff scope
  | input name =>
    change x ∈ variableUses (lowerInput scope name) ↔ x ∈ [name]
    have huses : variableUses (lowerInput scope name) = [name] := by
      unfold lowerInput
      split <;> rfl
    rw [huses]
  | print items =>
    rw [lowerStmt, Lowering.run_bind]
    change x ∈ variableUses (_ ++ _) ↔ x ∈ items.flatMap Expr.names
    rw [variableUses_append, variableUses_lowerItems]
    change x ∈ _ ++ [] ↔ _
    rw [List.append_nil]
  | cond lhs op rhs body ih =>
    rw [lowerStmt, Lowering.run_bind, Lowering.run_bind, Lowering.run_bind]
    change x ∈ variableUses (_ ++ _ ++ _ ++ _) ↔ x ∈ lhs.names ++ rhs.names ++ body.names
    rw [variableUses_append, variableUses_append, variableUses_append, variableUses_lowerExpr,
      variableUses_lowerExpr, List.mem_append, ih, ← List.mem_append]
    change x ∈ _ ++ [] ++ _ ↔ _
    rw [List.append_nil]
  | goto | gosub | ret | stop => rfl

/-- The variables in the code of lines are the names in them. -/
theorem mem_variableUses_lowerLines_iff {x : String} {lines : List Line} {st : LoweringState} :
    x ∈ variableUses ((lowerLines scope lines).run st).1 ↔
      x ∈ lines.flatMap fun line => line.stmt.names := by
  induction lines generalizing st with
  | nil => rfl
  | cons line rest ih =>
    rw [run_lowerLines_cons, variableUses_append, List.mem_append, ih, List.flatMap_cons,
      List.mem_append, run_lowerLine, ← mem_variableUses_lowerStmt_iff scope]
    change x ∈ variableUses (_ ++ _) ∨ _ ↔ _
    rw [variableUses_append]
    change x ∈ _ ++ [] ∨ _ ↔ _
    rw [List.append_nil]

end Lowering

/-! ## Images in capitals -/

section Images

variable (program : Program) (scope : Scope)

/-- In capitals an image differs in its code only. -/
theorem Image.ofProgram_capitals :
    Image.ofProgram scope (program.rename .capitals) =
      { Image.ofProgram scope program with
        code := capitalCode (Image.ofProgram scope program).code } := by
  have hrun := run_lowerLines_capitals scope program.lines {}
  unfold Image.ofProgram
  rw [Program.rename, hrun]
  rfl

/-- The variables in the code of a program are its names. -/
theorem var_mem_mentioned_code_iff (x : String) :
    .var x ∈ mentioned (Image.ofProgram scope program).code ↔ x ∈ program.names := by
  rw [← mem_variableUses_iff]
  exact mem_variableUses_lowerLines_iff scope

/-- In capitals the assembly text is the same only if all names are in capitals. -/
theorem render_listing_capitals_iff :
    render (Image.ofProgram scope (program.rename .capitals)).listing =
        render (Image.ofProgram scope program).listing ↔
      ∀ x ∈ program.names, upper x = x := by
  have hcode : (∀ l ∈ mentioned (Image.ofProgram scope program).code, capitalLabel l = l) ↔
      ∀ x ∈ program.names, upper x = x := by
    simp only [capitalLabel_eq_self_iff, ← var_mem_mentioned_code_iff program scope]
    exact ⟨fun h x hx => h _ hx x rfl, fun h l hl x heq => h x (heq ▸ hl)⟩
  rw [← hcode, ← renderChars_map_relabel_iff keepsLengths_capitalLabel, ← String.toList_inj,
    toList_render, toList_render, Image.listing_eq_storage, Image.listing_eq_storage,
    Image.ofProgram_capitals]
  simp only [renderChars_append, List.append_cancel_left_eq]
  exact List.append_left_inj _

/-- A name of an accepted program has storage only if it is in capitals. -/
theorem var_mem_storageLabels_iff (hscope : program.scope = .ok scope) {x : String}
    (hx : x ∈ program.names) :
    .var x ∈ (Image.ofProgram scope program).storageLabels ↔ upper x = x := by
  rcases Program.wellTyped_of_scope hscope with ⟨hglobal, htyped, -⟩
  have hsymbols : (.var x ∈ (Image.ofProgram scope program).storageLabels) ↔
      x ∈ scope.symbols.map Symbol.name := by
    change _ ↔ x ∈ (Image.ofProgram scope program).symbols.map Symbol.name
    simp [mem_storageLabels_iff]
  rw [hsymbols]
  constructor
  · intro hmem
    rcases List.mem_map.1 hmem with ⟨s, hs, rfl⟩
    exact hglobal.upper_eq s hs
  · intro hupper
    rcases List.mem_flatMap.1 hx with ⟨line, hline, hxline⟩
    rcases (htyped line hline).exists_typeOf? x hxline with ⟨type, htype⟩
    exact hglobal.mem_names hupper htype

end Images

/-- What letter case makes of an accepted program.  In capitals it is accepted with the same scope.
In every state that its runs get to, each line does in capitals what it does as it is, except that
names which it writes in other letters keep their values as it is.  If it writes names in capitals
only, all its runs on all inputs are those in capitals.  The assembly text is that in capitals only
if all names are in capitals: the labels of variables that code takes are the names as they are
spelled, and those of them that have storage are the ones in capitals. -/
theorem letter_case_of_trees {program : Program} {scope : Scope}
    (hnumbers : program.checkNumbering = .ok ()) (hscope : program.scope = .ok scope) :
    let capital := program.rename .capitals
    let image := Image.ofProgram scope program
    capital.checkNumbering = .ok () ∧ capital.scope = .ok scope ∧
    (∀ (input : List UInt8) (room : Option Nat) (trace : List Event) (s : State) (event : Event)
      (s' : State), History program scope (.start scope input room) trace s →
        Advance program scope s event s' →
        ∃ t, Advance capital scope s ⟨event.index, event.stmt.rename .capitals, event.error⟩ t ∧
          Capitalizes event.stmt s s' t) ∧
    ((∀ x ∈ program.targets, upper x = x) →
      ∀ (input : List UInt8) (room : Option Nat) (k : Nat),
        let result := runTimes program scope k (.start scope input room)
        runTimes capital scope k (.start scope input room) = result ∧
          ∀ n, (runFor capital scope n).run result.2 = (runFor program scope n).run result.2) ∧
    (render (Image.ofProgram scope capital).listing = render image.listing ↔
      ∀ x ∈ program.names, upper x = x) ∧
    (∀ x, .var x ∈ mentioned image.code ↔ x ∈ program.names) ∧
    ∀ x ∈ program.names, .var x ∈ image.storageLabels ↔ upper x = x := by
  intro capital image
  refine ⟨Program.checkNumbering_capitals hnumbers, Program.scope_capitals hscope, ?_, ?_,
    render_listing_capitals_iff program scope, var_mem_mentioned_code_iff program scope,
    fun x => var_mem_storageLabels_iff program scope hscope⟩
  · intro input room trace s event s' hhistory hadvance
    exact hadvance.exists_capitals (hhistory.covers (covers_start hscope input room))
  · intro htargets input room k
    have hstart := covers_start hscope input room
    rcases history_of_runTimes program scope k (.start scope input room) with ⟨trace, hhistory⟩
    exact ⟨runTimes_capitals htargets k hstart,
      fun n => runFor_capitals htargets n (hhistory.covers hstart)⟩

/-- A program that reads its variable in small letters runs as it does in capitals, though its code
takes a label without storage. -/
theorem small_letters_read :
    ∃ (program : Program) (scope : Scope) (s : State),
      program = ⟨[⟨10, .declare .integer ["N"]⟩, ⟨20, .input "N"⟩,
        ⟨30, .print [.binary .mul (.name "n") (.number 2)]⟩, ⟨40, .stop⟩]⟩ ∧
      (runFor (program.rename .capitals) scope 4).run (.start scope [52, 10] none) = .ok true s ∧
      (runFor program scope 4).run (.start scope [52, 10] none) = .ok true s ∧
      s.output.written = #[56, 10] ∧
      .var "n" ∉ (Image.ofProgram scope program).storageLabels := by
  let program : Program :=
    ⟨[⟨10, .declare .integer ["N"]⟩, ⟨20, .input "N"⟩,
      ⟨30, .print [.binary .mul (.name "n") (.number 2)]⟩, ⟨40, .stop⟩]⟩
  let scope : Scope := ⟨⟨"GLOBAL", [⟨"N", .integer⟩]⟩, []⟩
  have hnumbers : program.checkNumbering = .ok () := by cbv
  have hscope : program.scope = .ok scope := by cbv
  let final : State :=
    { store := [("N", .integer 4)], next := none, line := some 40, output := ⟨#[56, 10], none⟩ }
  have hrun : (runFor program scope 4).run (.start scope [52, 10] none) = .ok true final := by cbv
  rcases letter_case_of_trees hnumbers hscope with ⟨-, -, -, hruns, -, -, hstorage⟩
  have hsame := (hruns (by decide) [52, 10] none 0).2 4
  exact ⟨program, scope, final, rfl, hsame.trans hrun, hrun, rfl,
    fun hmem => absurd ((hstorage "n" (by decide)).1 hmem) (by decide)⟩

/-- An assignment in small letters is lost: the program prints zero where it prints five in
capitals, and its code takes a label without storage. -/
theorem small_letters_written :
    ∃ (program : Program) (scope : Scope) (s t : State),
      program = ⟨[⟨10, .declare .integer ["x"]⟩, ⟨20, .assign "x" (.number 5)⟩,
        ⟨30, .print [.name "x"]⟩, ⟨40, .stop⟩]⟩ ∧
      program.checkNumbering = .ok () ∧ program.scope = .ok scope ∧
      (runFor program scope 4).run (.start scope [] none) = .ok true s ∧
      (runFor (program.rename .capitals) scope 4).run (.start scope [] none) = .ok true t ∧
      s.output.written = #[48, 10] ∧ t.output.written = #[53, 10] ∧
      s.get? "x" = some (.integer 0) ∧ t.get? "x" = some (.integer 5) ∧
      render (Image.ofProgram scope (program.rename .capitals)).listing ≠
        render (Image.ofProgram scope program).listing ∧
      .var "x" ∈ mentioned (Image.ofProgram scope program).code ∧
      .var "x" ∉ (Image.ofProgram scope program).storageLabels := by
  let program : Program :=
    ⟨[⟨10, .declare .integer ["x"]⟩, ⟨20, .assign "x" (.number 5)⟩,
      ⟨30, .print [.name "x"]⟩, ⟨40, .stop⟩]⟩
  let scope : Scope := ⟨⟨"GLOBAL", [⟨"X", .integer⟩]⟩, []⟩
  have hnumbers : program.checkNumbering = .ok () := by cbv
  have hscope : program.scope = .ok scope := by cbv
  have hname : "x" ∈ program.names := by decide
  refine ⟨program, scope,
    { store := [("X", .integer 0), ("x", .integer 5)], next := none, line := some 40,
      output := ⟨#[48, 10], none⟩ },
    { store := [("X", .integer 5)], next := none, line := some 40, output := ⟨#[53, 10], none⟩ },
    rfl, hnumbers, hscope, by cbv, by cbv, rfl, rfl, by decide, by decide, ?_, ?_, ?_⟩
  · rw [Ne, render_listing_capitals_iff]
    exact fun hupper => absurd (hupper "x" hname) (by decide)
  · exact (var_mem_mentioned_code_iff program scope "x").2 hname
  · exact fun hmem =>
      absurd ((var_mem_storageLabels_iff program scope hscope hname).1 hmem) (by decide)

end LineBasic
