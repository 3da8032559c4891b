import LineBasic.Proofs.Check.Names
import LineBasic.Proofs.Grammar.Canonical
import LineBasic.Proofs.Lowering.Arithmetic
import LineBasic.Proofs.Lowering.Shape
import LineBasic.Proofs.Machine.Divisions
import LineBasic.Proofs.Machine.ExactArithmetic
import LineBasic.Proofs.Machine.StoreTyping

/-!
# Code of expressions

The code of an expression for numbers computes what the expression means.  It puts the value on
the stack and leaves the rest of it and all cells alone, or hands control to the routine that
reports the fault.  Only if the expression comes to the division of -32768 by 1, which the processor
cannot make, does the code stop there.

Main definitions:

- `Mirrors`: the cells of a processor hold what the variables of a store do.
- `MirrorsNames`: the cells of some variables hold the numbers that these do.

Main result:

- `traps_or_delivers_lowerExpr`: the code of an expression delivers its value or reports its fault,
  unless it comes to a division that cannot be made.
-/

namespace LineBasic

open Assembly Machine

variable {listing : List Item} {scope : Scope} {store : Store}

/-- The cells of a processor hold what the variables of a store do. -/
def Mirrors (store : Store) (cells : Label → Option Word) : Prop :=
  ∀ x n, store.lookup x = some (.integer n) → cells (.var x) = some (.number n)

/-- What is delivered from where a run gets to is delivered. -/
theorem Delivers.of_steps {n q : Nat} {p m : Processor} {rest : List Word}
    {answer : Except Fault Int16} (hsteps : Steps listing n p [] m) (hcells : m.cells = p.cells)
    (h : Delivers listing m q rest answer) : Delivers listing p q rest answer := by
  cases answer with
  | ok v =>
    rcases h with ⟨k, p', hrest, hcontrol, hsame, hstack⟩
    exact ⟨n + k, p', hsteps.trans hrest, hcontrol, hsame.trans hcells, hstack⟩
  | error fault =>
    rcases h with ⟨r, hr, k, p', hrest, hhanded⟩
    exact ⟨r, hr, n + k, p', hsteps.trans hrest, hhanded⟩

/-- The values of two expressions are on the stack when control gets to a place, or the first fault
of them is reported. -/
def DeliversBoth (listing : List Item) (p : Processor) (q : Nat) (rest : List Word) :
    Except Fault Int16 → Except Fault Int16 → Prop
  | .ok l, .ok r => Reaches listing p [] q (.number r :: .number l :: rest)
  | .error fault, _ => ∃ r, fault.routine? = some r ∧ Hands listing p [] r
  | .ok _, .error fault => ∃ r, fault.routine? = some r ∧ Hands listing p [] r

/-- The code of two expressions delivers both values, unless it comes to a division that cannot be
made, if the code of each of them does. -/
theorem traps_or_delivers_sides {lhs rhs : Expr} {q q' : Nat} {p : Processor}
    (hleft : lhs.Divides store (-32768) 1 ∧ Traps listing p [] ∨
      ¬ lhs.Divides store (-32768) 1 ∧ Delivers listing p q p.stack (evalNumber store lhs))
    (hright : ∀ m, m.control = .running q → m.cells = p.cells →
      rhs.Divides store (-32768) 1 ∧ Traps listing m [] ∨
        ¬ rhs.Divides store (-32768) 1 ∧ Delivers listing m q' m.stack (evalNumber store rhs)) :
    SidesDivide store (-32768) 1 lhs rhs ∧ Traps listing p [] ∨
      ¬ SidesDivide store (-32768) 1 lhs rhs ∧
        DeliversBoth listing p q' p.stack (evalNumber store lhs) (evalNumber store rhs) := by
  rcases hleft with ⟨hdivides, htraps⟩ | ⟨hlnot, hleft⟩
  · exact .inl ⟨.inl hdivides, htraps⟩
  cases hl : evalNumber store lhs with
  | error fault =>
    rw [hl] at hleft
    rw [sidesDivide_of_error hl]
    exact .inr ⟨hlnot, hleft⟩
  | ok l =>
    rw [hl] at hleft
    rw [sidesDivide_iff hl]
    rcases hleft with ⟨n, m, hsteps, hmcontrol, hmcells, hmstack⟩
    rcases hright m hmcontrol hmcells with ⟨hdivides, htraps⟩ | ⟨hrnot, hright⟩
    · exact .inl ⟨.inr hdivides, htraps.of_steps hsteps⟩
    rw [hmstack] at hright
    have hdelivers := Delivers.of_steps hsteps hmcells hright
    refine .inr ⟨not_or.2 ⟨hlnot, hrnot⟩, ?_⟩
    cases hr : evalNumber store rhs with
    | error fault =>
      rw [hr] at hdelivers
      exact hdelivers
    | ok r =>
      rw [hr] at hdelivers
      exact hdelivers

/-- A word in the first register, put on the stack. -/
theorem reaches_load {q : Nat} {src : Operand} {n : Int16}
    (hplaced : Placed listing q (code [.mov .ax src, .push .ax])) {p : Processor}
    (hcontrol : p.control = .running q) (hread : p.read? src = some (.number n)) :
    Reaches listing p [] (q + 2) (.number n :: p.stack) := by
  have hmov : execInstr? listing q p (.mov .ax src) =
      some ([], { p with registers := p.registers.set .ax (.number n) }.goTo (q + 1)) := by
    simp [execInstr?, hread, Processor.write?]
  exact ⟨2, _, .silent hcontrol hplaced.head hmov (.silent rfl hplaced.tail.head rfl .refl),
    rfl, rfl, rfl⟩

/-- The code of an operation delivers its result, unless the processor cannot make it. -/
theorem traps_or_delivers_operation (op : ArithOp) (st : LoweringState) {q : Nat}
    (hplaced : Placed listing q ((operation op).run st).1) {p : Processor}
    (hcontrol : p.control = .running q) {l r : Int16} {rest : List Word}
    (hstack : p.stack = .number r :: .number l :: rest) :
    (op = .div ∧ l = -32768 ∧ r = 1) ∧ Traps listing p [] ∨
      ¬ (op = .div ∧ l = -32768 ∧ r = 1) ∧
        Delivers listing p (q + ((operation op).run st).1.length) rest (apply op l r) := by
  cases op with
  | add =>
    exact .inr ⟨by simp, delivers_guarded (computes_add listing l r) hplaced hcontrol hstack⟩
  | sub =>
    exact .inr ⟨by simp, delivers_guarded (computes_sub listing l r) hplaced hcontrol hstack⟩
  | mul =>
    exact .inr ⟨by simp, delivers_guarded (computes_imul listing l r) hplaced hcontrol hstack⟩
  | div =>
    simp only [true_and]
    exact traps_or_delivers_division hplaced hcontrol hstack

/-- The value of an expression for numbers is the number that it has. -/
theorem eval_eq_map_evalNumber (hglobal : scope.IsGlobal) (hstore : store.symbols = scope.symbols)
    {e : Expr} (htype : e.type scope = .ok .integer) :
    eval store e = (evalNumber store e).map .integer := by
  rcases eval_ok_or_arithmetic hglobal hstore htype with ⟨v, hv, hvtype⟩ | ⟨fault, hfault, -⟩
  · rcases v.eq_integer_of_type hvtype with ⟨n, rfl⟩
    rw [evalNumber, hv]
    rfl
  · rw [evalNumber, hfault]
    rfl

/-- An instruction takes the cell of a variable for numbers. -/
theorem variableWord_of_integer {x : String} (hname : scope.typeOf? x = some .integer) :
    variableWord scope x = .cell (.var x) := by
  simp [variableWord, Scope.isString, hname]

/-- The word of a variable for numbers is the number that it holds. -/
theorem exists_read?_variableWord (hglobal : scope.IsGlobal)
    (hstore : store.symbols = scope.symbols) {x : String} (hupper : upper x = x)
    (hname : scope.typeOf? x = some .integer) {p : Processor} (hmirrors : Mirrors store p.cells) :
    ∃ n, eval store (.name x) = .ok (.integer n) ∧
      p.read? (variableWord scope x) = some (.number n) := by
  rcases exists_get?_of_typeOf? hglobal hstore hname with ⟨v, hget, hv⟩
  rcases v.eq_integer_of_type hv with ⟨n, rfl⟩
  have hlookup : store.lookup x = some (.integer n) := by
    rw [← hget, Store.get?, hupper]
  refine ⟨n, by simp [eval, hget], ?_⟩
  rw [variableWord_of_integer hname]
  exact hmirrors x n hlookup

/-- Variables hold numbers, and their cells hold the same ones. -/
def MirrorsNames (store : Store) (cells : Label → Option Word) (names : List String) : Prop :=
  ∀ x ∈ names, ∃ n, store.get? x = some (.integer n) ∧ cells (.var x) = some (.number n)

/-- The variables of an expression for numbers are mirrored if all variables are. -/
theorem Mirrors.names (hglobal : scope.IsGlobal) (hstore : store.symbols = scope.symbols)
    {cells : Label → Option Word} (hmirrors : Mirrors store cells) {e : Expr}
    (harith : e.IsArithmetic) (htype : e.type scope = .ok .integer) :
    MirrorsNames store cells e.names := by
  induction e with
  | number n => simp [MirrorsNames, Expr.names]
  | text content => simp [MirrorsNames, Expr.names]
  | name x =>
    rw [MirrorsNames, Expr.names, List.forall_mem_singleton]
    rcases exists_get?_of_typeOf? hglobal hstore (Scope.require_eq_ok_iff.1 htype) with
      ⟨v, hget, hv⟩
    rcases v.eq_integer_of_type hv with ⟨n, rfl⟩
    have hupper : upper x = x := harith
    refine ⟨n, hget, hmirrors x n ?_⟩
    rw [← hget, Store.get?, hupper]
  | binary op lhs rhs ihl ihr =>
    rcases Expr.type_binary_eq_ok_iff.1 htype with ⟨-, hl, hr⟩
    rw [MirrorsNames, Expr.names, List.forall_mem_append]
    exact ⟨ihl harith.1 hl, ihr harith.2 hr⟩

/-- The code of an expression delivers its value or reports its fault, unless it comes to a division
that cannot be made, if the cells of its variables are those of the store. -/
theorem traps_or_delivers_of_names {e : Expr} (htype : e.type scope = .ok .integer)
    {st : LoweringState} {q : Nat} (hplaced : Placed listing q ((lowerExpr scope e).run st).1)
    {p : Processor} (hcontrol : p.control = .running q)
    (hnames : MirrorsNames store p.cells e.names) :
    e.Divides store (-32768) 1 ∧ Traps listing p [] ∨
      ¬ e.Divides store (-32768) 1 ∧
        Delivers listing p (q + ((lowerExpr scope e).run st).1.length) p.stack
          (evalNumber store e) := by
  induction e generalizing st q p with
  | number n =>
    have hword : p.read? (.dec n.toInt) = some (.number n) := by
      simp [Processor.read?, Numeral.value]
    exact .inr ⟨id, reaches_load hplaced hcontrol hword⟩
  | text content => cases htype
  | name x =>
    rcases hnames x (List.mem_singleton.2 rfl) with ⟨n, hget, hcell⟩
    have hword : p.read? (variableWord scope x) = some (.number n) := by
      rw [variableWord_of_integer (Scope.require_eq_ok_iff.1 htype)]
      exact hcell
    have hvalue : evalNumber store (.name x) = .ok n := by
      rw [evalNumber, eval, hget]
      rfl
    rw [hvalue]
    exact .inr ⟨id, reaches_load hplaced hcontrol hword⟩
  | binary op lhs rhs ihl ihr =>
    rcases Expr.type_binary_eq_ok_iff.1 htype with ⟨-, hl, hr⟩
    rcases List.forall_mem_append.1 hnames with ⟨hlnames, hrnames⟩
    have hall : Placed listing q (((lowerExpr scope lhs).run st).1 ++
        ((lowerExpr scope rhs).run ((lowerExpr scope lhs).run st).2).1 ++
        ((operation op).run
          ((lowerExpr scope rhs).run ((lowerExpr scope lhs).run st).2).2).1) := hplaced
    rw [evalNumber_binary, Expr.divides_binary_iff]
    rcases traps_or_delivers_sides (ihl hl hall.left.left hcontrol hlnames)
      (fun m hmcontrol hmcells => ihr hr hall.left.right hmcontrol (hmcells ▸ hrnames)) with
      ⟨hdivides, htraps⟩ | ⟨hnot, hboth⟩
    · exact .inl ⟨.inl hdivides, htraps⟩
    cases hlvalue : evalNumber store lhs with
    | error fault =>
      rw [hlvalue] at hboth
      exact .inr ⟨by simp [hnot], hboth⟩
    | ok l =>
      cases hrvalue : evalNumber store rhs with
      | error fault =>
        rw [hlvalue, hrvalue] at hboth
        exact .inr ⟨by simp [hnot], hboth⟩
      | ok r =>
        rw [hlvalue, hrvalue] at hboth
        rcases hboth with ⟨n, m, hsteps, hmcontrol, hmcells, hmstack⟩
        rw [Nat.add_assoc, ← List.length_append] at hmcontrol
        simp only [Except.ok.injEq]
        rcases traps_or_delivers_operation op _ hall.right hmcontrol hmstack with
          ⟨hdivides, htraps⟩ | ⟨hother, hresult⟩
        · exact .inl ⟨.inr hdivides, htraps.of_steps hsteps⟩
        · rw [Nat.add_assoc, ← List.length_append] at hresult
          exact .inr ⟨not_or.2 ⟨hnot, hother⟩, Delivers.of_steps hsteps hmcells hresult⟩

/-- The code of an expression delivers its value or reports its fault, unless it comes to a division
that cannot be made. -/
theorem traps_or_delivers_lowerExpr (hglobal : scope.IsGlobal)
    (hstore : store.symbols = scope.symbols) {e : Expr} (harith : e.IsArithmetic)
    (htype : e.type scope = .ok .integer) {st : LoweringState} {q : Nat}
    (hplaced : Placed listing q ((lowerExpr scope e).run st).1) {p : Processor}
    (hcontrol : p.control = .running q) (hmirrors : Mirrors store p.cells) :
    e.Divides store (-32768) 1 ∧ Traps listing p [] ∨
      ¬ e.Divides store (-32768) 1 ∧
        Delivers listing p (q + ((lowerExpr scope e).run st).1.length) p.stack
          (evalNumber store e) :=
  traps_or_delivers_of_names htype hplaced hcontrol (hmirrors.names hglobal hstore harith htype)

end LineBasic
