import LineBasic.Proofs.Check.Checked
import LineBasic.Proofs.Lowering.Assignment
import LineBasic.Proofs.Lowering.Condition
import LineBasic.Proofs.Lowering.Layout
import LineBasic.Proofs.Lowering.Printing
import LineBasic.Proofs.Machine.Calls
import LineBasic.Proofs.Machine.TypeSoundness

/-!
# Code of statements

The code of a statement does what the machine does with the statement.  If the machine performs it,
the cells and the stack come to hold what the variables and the returns do, and control gets to
where the machine goes on; if the machine reports a fault of arithmetic, so does the code.  Only if
the statement divides -32768 by 1, the code stops at this division.

Main definitions:

- `Checked.IsNumeric`: programs on numbers that read nothing.
- `Stmt.Shows`: what is seen of a statement.
- `Arrives`: a processor is where a machine is behind a statement.
- `AtStatement`: a processor is at the code of a statement, as a machine is at the statement.

Main results:

- `AtStatement.runsTo_declare` and its siblings: the code of each kind of statement.
- `runsTo_of_performs`: the code of a statement that succeeds.
- `hands_of_fails`: the code of a statement whose arithmetic faults.
- `exists_traps_of_divides`: the code of a statement that comes to a division that cannot be made.
-/

namespace LineBasic

open Assembly Machine

/-! ## Programs on numbers -/

/-- No statement declares variables for texts, and none reads input. -/
structure Checked.IsNumeric (checked : Checked) : Prop where
  declares_no_text : ∀ line ∈ checked.program.lines, ∀ names,
    line.stmt.core ≠ .declare .string names
  reads_nothing : ∀ line ∈ checked.program.lines, ∀ x, line.stmt.core ≠ .input x

/-- All variables are for numbers. -/
theorem Checked.IsNumeric.numbers {checked : Checked} (h : checked.IsNumeric)
    (hwell : checked.WellFormed) : ∀ s ∈ checked.scope.symbols, s.type = .integer := by
  intro s hs
  rcases hwell.declared s hs with ⟨line, hline, type, names, x, hcore, -, rfl⟩
  cases type with
  | integer => rfl
  | string => exact absurd hcore (h.declares_no_text line hline names)

/-- The listing of a checked program. -/
def Checked.listing (checked : Checked) : List Item :=
  (Image.ofProgram checked.scope checked.program).listing

/-- The place of a line in the listing of a checked program. -/
def Checked.position (checked : Checked) (i : Nat) : Nat :=
  linePosition checked.scope checked.program i

/-- The word on the stack for a place to come back to: it is behind the call on the line before,
where that line ends. -/
def Checked.returnWord (checked : Checked) (r : Nat) : Word :=
  .code (checked.position r - 2)

/-! ## What a statement leads to -/

/-- What is seen of a statement that succeeds: all items that it prints, and the end of the line
of output. -/
def Stmt.Shows (store : Store) : Stmt → List Observation → Prop
  | print items, seen => ∃ values, items.mapM (eval store) = .ok values ∧
    seen = values.map Value.observation ++ [.newLine]
  | _, seen => seen = []

/-- A processor is where a machine is: its cells and stack hold what the variables and returns
do, and control is at the next line or at the end of the line before it. -/
def Arrives (checked : Checked) (s : State) (p : Processor) : Prop :=
  Mirrors s.store p.cells ∧
    match s.next with
    | none => p.control = .handed .terminateProgram
    | some j => p.stack = s.returns.map checked.returnWord ∧
      (p.control = .running (checked.position j) ∨ p.control = .running (checked.position j - 2))

/-- A run that leads to where a machine is. -/
def RunsTo (checked : Checked) (p : Processor) (seen : List Observation) (s : State) : Prop :=
  ∃ n p', Steps checked.listing n p seen p' ∧ Arrives checked s p'

/-- Control at the end of a line goes on at the next one. -/
theorem RunsTo.of_reaches {checked : Checked} {p : Processor} {seen : List Observation}
    {s : State} {j : Nat} (hnext : s.next = some j) (hmirrors : Mirrors s.store p.cells)
    (h : Reaches checked.listing p seen (checked.position j - 2)
      (s.returns.map checked.returnWord)) : RunsTo checked p seen s := by
  rcases h with ⟨n, p', hsteps, hcontrol, hcells, hstack⟩
  refine ⟨n, p', hsteps, hcells ▸ hmirrors, ?_⟩
  rw [hnext]
  exact ⟨hstack, .inr hcontrol⟩

/-- The same with a store that was written to. -/
theorem RunsTo.of_updates {checked : Checked} {p : Processor} {s : State} {j : Nat}
    (hnext : s.next = some j)
    (h : Updates checked.listing p (checked.position j - 2) s.store
      (s.returns.map checked.returnWord)) : RunsTo checked p [] s := by
  rcases h with ⟨n, p', hsteps, hcontrol, hmirrors, hstack⟩
  refine ⟨n, p', hsteps, hmirrors, ?_⟩
  rw [hnext]
  exact ⟨hstack, .inr hcontrol⟩

section Statements

variable {checked : Checked}

/-- A processor is at the code of a statement, as a machine is at the statement. -/
structure AtStatement (checked : Checked) (i : Nat) (stmt : Stmt) (st : LoweringState) (q : Nat)
    (s : State) (p : Processor) : Prop where
  next_eq : s.next = some (i + 1)
  typed : stmt.WellTyped checked.scope
  canonical : stmt.IsCanonical
  reads_nothing : ∀ x, stmt.core ≠ .input x
  target_mem : ∀ t, stmt.target? = some t → t ∈ checked.program.lines.map Line.number
  symbols_eq : s.store.symbols = checked.scope.symbols
  placed : Placed checked.listing q ((lowerStmt checked.scope stmt).run st).1
  length_eq : q + ((lowerStmt checked.scope stmt).run st).1.length = checked.position (i + 1) - 2
  resolve_lineEnd : ∀ k < ((lowerStmt checked.scope stmt).run st).1.length,
    resolve? checked.listing (q + k) (.inner .lineEnd) = some (checked.position (i + 1) - 2)
  stored : Stored checked.listing ((lowerStmt checked.scope stmt).run st).2
  control_eq : p.control = .running q
  mirrors : Mirrors s.store p.cells
  stack_eq : p.stack = s.returns.map checked.returnWord

/-- The code of the body stands behind the code of its condition. -/
theorem AtStatement.body {i : Nat} {lhs rhs : Expr} {op : Relop} {body : Stmt}
    {st : LoweringState} {q : Nat} {s : State} {p : Processor}
    (h : AtStatement checked i (.cond lhs op rhs body) st q s p) {m : Processor}
    {front : List Item}
    (hfront : front = ((lowerExpr checked.scope lhs).run st).1 ++
      ((lowerExpr checked.scope rhs).run ((lowerExpr checked.scope lhs).run st).2).1 ++
        comparison op)
    (hcontrol : m.control = .running (q + front.length)) (hcells : m.cells = p.cells)
    (hstack : m.stack = p.stack) :
    AtStatement checked i body
      ((lowerExpr checked.scope rhs).run ((lowerExpr checked.scope lhs).run st).2).2
      (q + front.length) s m := by
  have hcode : ((lowerStmt checked.scope (.cond lhs op rhs body)).run st).1 =
      front ++ ((lowerStmt checked.scope body).run
        ((lowerExpr checked.scope rhs).run ((lowerExpr checked.scope lhs).run st).2).2).1 := by
    rw [hfront]
    rfl
  have hplaced := h.placed
  have hlength := h.length_eq
  have hresolve := h.resolve_lineEnd
  rw [hcode] at hplaced hlength hresolve
  rw [List.length_append] at hlength hresolve
  exact {
    next_eq := h.next_eq
    typed := h.typed.2
    canonical := h.canonical.2.2
    reads_nothing := h.reads_nothing
    target_mem := h.target_mem
    symbols_eq := h.symbols_eq
    placed := hplaced.right
    length_eq := by rw [Nat.add_assoc]; exact hlength
    resolve_lineEnd := fun k hk => by
      rw [Nat.add_assoc]
      exact hresolve _ (by omega)
    stored := h.stored
    control_eq := hcontrol
    mirrors := hcells ▸ h.mirrors
    stack_eq := hstack.trans h.stack_eq }

/-- The label of a line that is found means the place of that line. -/
theorem resolve?_of_findLine? (hwell : checked.WellFormed) {t : Int16} {j : Nat}
    (h : findLine? checked.program t = some j) (q : Nat) :
    resolve? checked.listing q (.line t) = some (checked.position j) := by
  rcases hwell.numbered.findLine?_eq_some_iff.1 h with ⟨line, hline, rfl⟩
  exact resolve?_line hwell.numbered hline q

/-- A jump to a number of a line finds it. -/
theorem exists_findLine?_of_mem (hwell : checked.WellFormed) {t : Int16}
    (h : t ∈ checked.program.lines.map Line.number) :
    ∃ j, findLine? checked.program t = some j := by
  rcases List.mem_map.1 h with ⟨line, hline, rfl⟩
  rcases List.getElem?_of_mem hline with ⟨j, hj⟩
  exact ⟨j, hwell.numbered.findLine?_eq_some_iff.2 ⟨line, hj, rfl⟩⟩

/-- A declared name is that of a number. -/
theorem typeOf?_eq_integer (hwell : checked.WellFormed) (hnumeric : checked.IsNumeric)
    {x : String} {type : SymbolType} (h : checked.scope.typeOf? x = some type) :
    type = .integer :=
  hnumeric.numbers hwell _ (hwell.isGlobal.typeOf?_eq_some_iff.1 h)

/-- An expression without texts is a number. -/
theorem type_eq_integer (hwell : checked.WellFormed) (hnumeric : checked.IsNumeric) {e : Expr}
    (harith : e.IsArithmetic) {type : SymbolType} (h : e.type checked.scope = .ok type) :
    type = .integer := by
  cases e with
  | number n =>
    cases h
    rfl
  | text content => cases harith
  | name x => exact typeOf?_eq_integer hwell hnumeric (Scope.require_eq_ok_iff.1 h)
  | binary op lhs rhs => exact (Expr.type_binary_eq_ok_iff.1 h).1

/-- Where the code of a condition leads to, unless it comes to a division that cannot be made. -/
theorem AtStatement.traps_or_tests (hwell : checked.WellFormed) (hnumeric : checked.IsNumeric)
    {i : Nat} {lhs rhs : Expr} {op : Relop} {body : Stmt} {st : LoweringState} {q : Nat} {s : State}
    {p : Processor} (h : AtStatement checked i (.cond lhs op rhs body) st q s p)
    {front : List Item}
    (hfront : front = ((lowerExpr checked.scope lhs).run st).1 ++
      ((lowerExpr checked.scope rhs).run ((lowerExpr checked.scope lhs).run st).2).1 ++
        comparison op) :
    SidesDivide s.store (-32768) 1 lhs rhs ∧ Traps checked.listing p [] ∨
      ¬ SidesDivide s.store (-32768) 1 lhs rhs ∧
        Tests checked.listing p (q + front.length) (checked.position (i + 1) - 2) op
          (evalNumber s.store lhs) (evalNumber s.store rhs) := by
  rcases h.typed with ⟨⟨type, hl, hr⟩, -⟩
  obtain rfl := type_eq_integer hwell hnumeric h.canonical.1 hl
  have hcode : ((lowerStmt checked.scope (.cond lhs op rhs body)).run st).1 =
      front ++ ((lowerStmt checked.scope body).run
        ((lowerExpr checked.scope rhs).run ((lowerExpr checked.scope lhs).run st).2).2).1 := by
    rw [hfront]
    rfl
  have hplaced := h.placed
  have hresolve := h.resolve_lineEnd
  rw [hcode] at hplaced hresolve
  subst hfront
  refine traps_or_tests_condition hwell.isGlobal h.symbols_eq h.canonical.1 h.canonical.2.1 hl hr
    hplaced.left (fun k hk => hresolve k ?_) h.control_eq h.mirrors
  rw [List.length_append]
  omega

section Kinds

variable {i : Nat} {st : LoweringState} {q : Nat} {s : State} {p : Processor}

/-- The code of a declaration gives the variables their initial values. -/
theorem AtStatement.runsTo_declare (hwell : checked.WellFormed) (hnumeric : checked.IsNumeric)
    {type : DeclaredType} {names : List String}
    (h : AtStatement checked i (.declare type names) st q s p) :
    RunsTo checked p []
      { s with store := names.foldl (fun store x => store.reset x type.symbolType) s.store } := by
  have htypes : ∀ x ∈ names, checked.scope.typeOf? x = some .integer := by
    intro x hx
    have hx' := h.typed x hx
    rwa [typeOf?_eq_integer hwell hnumeric hx'] at hx'
  have hfold : names.foldl (fun store x => store.reset x type.symbolType) s.store =
      names.foldl (fun store x => store.reset x .integer) s.store := by
    cases names with
    | nil => rfl
    | cons x rest =>
      rw [typeOf?_eq_integer hwell hnumeric (h.typed x List.mem_cons_self)]
  have hupdates := updates_lowerResets hwell.isGlobal h.symbols_eq h.canonical htypes h.placed
    h.control_eq h.mirrors
  have hlength : q + (names.flatMap (lowerReset checked.scope)).length =
      checked.position (i + 1) - 2 := h.length_eq
  rw [← hfold, h.stack_eq, hlength] at hupdates
  exact RunsTo.of_updates h.next_eq hupdates

/-- Where the code of an assignment leads to, unless it comes to a division that cannot be made. -/
theorem AtStatement.traps_or_assigns (hwell : checked.WellFormed) (hnumeric : checked.IsNumeric)
    {name : String} {value : Expr} (h : AtStatement checked i (.assign name value) st q s p) :
    value.Divides s.store (-32768) 1 ∧ Traps checked.listing p [] ∨
      ¬ value.Divides s.store (-32768) 1 ∧
        Assigns checked.listing p (q + ((lowerAssign checked.scope name value).run st).1.length)
          s.store name (eval s.store value) := by
  rcases h.typed with ⟨type, hname, hvalue⟩
  obtain rfl := typeOf?_eq_integer hwell hnumeric hname
  exact traps_or_assigns_lowerAssign hwell.isGlobal h.symbols_eq h.canonical.1 hname
    h.canonical.2 hvalue h.placed h.control_eq h.mirrors

/-- The code of an assignment writes the value. -/
theorem AtStatement.runsTo_assign {name : String} {value : Expr}
    (h : AtStatement checked i (.assign name value) st q s p) {v : Value}
    (hassigns : Assigns checked.listing p
      (q + ((lowerAssign checked.scope name value).run st).1.length) s.store name (.ok v)) :
    RunsTo checked p [] { s with store := s.store.put name v } := by
  have hlength : q + ((lowerAssign checked.scope name value).run st).1.length =
      checked.position (i + 1) - 2 := h.length_eq
  rw [hlength, Assigns, h.stack_eq] at hassigns
  exact RunsTo.of_updates h.next_eq hassigns

/-- What the code of a printing statement prints, unless a division on the way cannot be made. -/
theorem AtStatement.traps_or_prints (hwell : checked.WellFormed) (hnumeric : checked.IsNumeric)
    {items : List Expr} (h : AtStatement checked i (.print items) st q s p) :
    (ItemsDivide s.store (-32768) 1 items ∧
        ∃ printed : List Value, Traps checked.listing p (printed.map Value.observation)) ∨
      ¬ ItemsDivide s.store (-32768) 1 items ∧
        PrintsAll checked.listing s.store p
          (q + ((lowerItems checked.scope items).run st).1.length) items := by
  have hall : Placed checked.listing q (((lowerItems checked.scope items).run st).1 ++
      code [callRoutine .newLine]) := h.placed
  exact traps_or_prints_lowerItems hwell.isGlobal (hnumeric.numbers hwell) h.symbols_eq
    h.canonical h.typed hall.left h.stored h.control_eq h.mirrors

/-- The code of a printing statement prints all items and ends the line of output. -/
theorem AtStatement.runsTo_print {items : List Expr}
    (h : AtStatement checked i (.print items) st q s p)
    (hprints : PrintsAll checked.listing s.store p
      (q + ((lowerItems checked.scope items).run st).1.length) items) {text : String}
    (heval : evalItems s.store items = .ok text) (output : Output) :
    ∃ seen, (Stmt.print items).Shows s.store seen ∧ RunsTo checked p seen { s with output } := by
  have hall : Placed checked.listing q (((lowerItems checked.scope items).run st).1 ++
      code [callRoutine .newLine]) := h.placed
  have hlength : q + ((lowerItems checked.scope items).run st).1.length + 1 =
      checked.position (i + 1) - 2 := by
    rw [← h.length_eq]
    change _ = q + (_ ++ code [callRoutine .newLine]).length
    rw [List.length_append, ← Nat.add_assoc]
    rfl
  rcases hprints with ⟨values, text, hvalues, -, hprinted⟩ | ⟨fault, r, printed, hfault, -⟩
  · have hline : Reaches checked.listing p (values.map Value.observation ++ [.newLine])
        (checked.position (i + 1) - 2) p.stack := by
      refine hprinted.trans fun m hmcontrol _ hmstack => ?_
      have hcall : execInstr? checked.listing
          (q + ((lowerItems checked.scope items).run st).1.length) m (callRoutine .newLine) =
            some ([.newLine], m.goTo (checked.position (i + 1) - 2)) := by
        rw [← hlength]
        rfl
      exact ⟨1, _, .instr hmcontrol hall.right.head hcall .refl, rfl, rfl, hmstack⟩
    rw [h.stack_eq] at hline
    exact ⟨_, ⟨values, hvalues, rfl⟩, RunsTo.of_reaches h.next_eq h.mirrors hline⟩
  · rw [heval] at hfault
    cases hfault

/-- A jump leads to the line that is found. -/
theorem AtStatement.runsTo_goto (hwell : checked.WellFormed) {t : Int16} {j : Nat}
    (h : AtStatement checked i (.goto t) st q s p)
    (hfind : findLine? checked.program t = some j) :
    RunsTo checked p [] { s with next := some j } := by
  have hjump : execInstr? checked.listing q p (.jmp (.line t)) =
      some ([], p.goTo (checked.position j)) := by
    simp [execInstr?, jumpTarget?, resolve?_of_findLine? hwell hfind, Processor.goTo]
  exact ⟨1, _, .silent h.control_eq h.placed.head hjump .refl, h.mirrors, h.stack_eq, .inl rfl⟩

/-- A call leads to the line that is found, and leaves the place behind itself on the stack. -/
theorem AtStatement.runsTo_gosub (hwell : checked.WellFormed) {t : Int16} {j : Nat}
    (h : AtStatement checked i (.gosub t) st q s p)
    (hfind : findLine? checked.program t = some j) :
    RunsTo checked p [] { s with next := some j, returns := s.next.toList ++ s.returns } := by
  have hcall : execInstr? checked.listing q p (.call (.line t)) =
      some ([], (p.push (.code (q + 1))).goTo (checked.position j)) := by
    simp [execInstr?, resolve?_of_findLine? hwell hfind]
  -- the call is the last instruction of its line
  have hlast : q + 1 = checked.position (i + 1) - 2 := h.length_eq
  refine ⟨1, _, .silent h.control_eq h.placed.head hcall .refl, h.mirrors, ?_, .inl rfl⟩
  change Word.code (q + 1) :: p.stack = _
  rw [h.stack_eq, h.next_eq, hlast]
  rfl

/-- A return leads behind the call whose place is on the stack. -/
theorem AtStatement.runsTo_ret (h : AtStatement checked i .ret st q s p) {r : Nat}
    {rest : List Nat} (hreturns : s.returns = r :: rest) :
    RunsTo checked p [] { s with next := some r, returns := rest } := by
  have hstack := h.stack_eq
  rw [hreturns, List.map_cons] at hstack
  have hret : execInstr? checked.listing q p .ret =
      some ([], { p with stack := rest.map checked.returnWord }.goTo (checked.position r - 2)) := by
    simp [execInstr?, hstack, Checked.returnWord]
  exact ⟨1, _, .silent h.control_eq h.placed.head hret .refl, h.mirrors, rfl, .inr rfl⟩

end Kinds

/-- The code of a statement that succeeds leads to where the machine is, and shows what it
prints. -/
theorem runsTo_of_performs (hwell : checked.WellFormed) (hnumeric : checked.IsNumeric) {i : Nat}
    {stmt : Stmt} {st : LoweringState} {q : Nat} {s s' : State} {p : Processor}
    (h : AtStatement checked i stmt st q s p) (hnot : ¬ stmt.Divides s.store (-32768) 1)
    (hperforms : Performs checked.program checked.scope s (stmt.active s.store) s') :
    ∃ seen, (stmt.active s.store).Shows s.store seen ∧ RunsTo checked p seen s' := by
  induction stmt generalizing st q p with
  | declare type names =>
    cases hperforms with
    | declare => exact ⟨[], rfl, h.runsTo_declare hwell hnumeric⟩
  | assign name value =>
    cases hperforms with
    | assign heval =>
      have hassigns := ((h.traps_or_assigns hwell hnumeric).resolve_left fun hd => hnot hd.1).2
      rw [heval] at hassigns
      exact ⟨[], rfl, h.runsTo_assign hassigns⟩
  | input name => exact absurd rfl (h.reads_nothing name)
  | print items =>
    cases hperforms with
    | print heval =>
      have hprints := ((h.traps_or_prints hwell hnumeric).resolve_left fun hd => hnot hd.1).2
      exact h.runsTo_print hprints heval _
  | cond lhs op rhs body ih =>
    rcases not_or.1 hnot with ⟨hsides, hbody⟩
    have htests := ((h.traps_or_tests hwell hnumeric rfl).resolve_left fun hd => hsides hd.1).2
    rcases Stmt.active_cond_cases s.store lhs op rhs body with
      ⟨l, r, hl, hr, hholds, hactive⟩ | ⟨-, hactive⟩
    · rw [hactive] at hperforms ⊢
      rw [hl, hr, Tests, if_pos hholds] at htests
      rcases htests with ⟨n, m, hsteps, hmcontrol, hmcells, hmstack⟩
      obtain ⟨seen, hshows, k, p', hrest, harrives⟩ :=
        ih (h.body rfl hmcontrol hmcells hmstack)
          (fun hdivides => hbody ⟨⟨l, r, hl, hr, hholds⟩, hdivides⟩) hperforms
      exact ⟨seen, hshows, n + k, p', hsteps.trans hrest, harrives⟩
    · rw [hactive] at hperforms ⊢
      cases hperforms with
      | @skip _ _ _ _ l r hl hr hfalse =>
        rw [hl, hr, Tests, hfalse, h.stack_eq] at htests
        exact ⟨[], rfl, RunsTo.of_reaches h.next_eq h.mirrors htests⟩
  | goto target =>
    cases hperforms with
    | goto hfind => exact ⟨[], rfl, h.runsTo_goto hwell hfind⟩
    | goNowhere hfind =>
      rcases exists_findLine?_of_mem hwell (h.target_mem target rfl) with ⟨j, hj⟩
      rw [hj] at hfind
      cases hfind
  | gosub target =>
    cases hperforms with
    | gosub hfind => exact ⟨[], rfl, h.runsTo_gosub hwell hfind⟩
    | callNowhere hfind =>
      rcases exists_findLine?_of_mem hwell (h.target_mem target rfl) with ⟨j, hj⟩
      rw [hj] at hfind
      cases hfind
  | ret =>
    cases hperforms with
    | ret hreturns => exact ⟨[], rfl, h.runsTo_ret hreturns⟩
  | stop =>
    cases hperforms with
    | stop =>
      exact ⟨[], rfl, 1, _, .silent h.control_eq h.placed.head rfl .refl, h.mirrors, rfl⟩

/-- The fault that a rule gives is the one that was reported, and so is its routine. -/
theorem hands_of_report {s : State} {fault fault' : Fault} {r : Routine} {p : Processor}
    (hroutine : fault.routine? = some r) (heq : s.blame fault = s.blame fault')
    (hreported : ∃ r', fault'.routine? = some r' ∧ Hands checked.listing p [] r') :
    ∃ printed : List Value, Hands checked.listing p (printed.map Value.observation) r := by
  cases heq
  rcases hreported with ⟨r', hr', hhands⟩
  rw [hroutine] at hr'
  cases hr'
  exact ⟨[], hhands⟩

/-- The code of a statement whose arithmetic faults reports the fault, and shows at most what it
printed before. -/
theorem hands_of_fails (hwell : checked.WellFormed) (hnumeric : checked.IsNumeric) {i : Nat}
    {stmt : Stmt} {st : LoweringState} {q : Nat} {s s' : State} {p : Processor}
    (h : AtStatement checked i stmt st q s p) (hnot : ¬ stmt.Divides s.store (-32768) 1)
    {fault : Fault} {r : Routine} (hroutine : fault.routine? = some r)
    (hfails : Fails checked.scope s (stmt.active s.store) (s.blame fault) s') :
    ∃ printed : List Value, Hands checked.listing p (printed.map Value.observation) r := by
  generalize he : s.blame fault = e at hfails
  induction stmt generalizing st q p with
  | declare type names => cases hfails
  | assign name value =>
    cases hfails with
    | assign heval =>
      have hassigns := ((h.traps_or_assigns hwell hnumeric).resolve_left fun hd => hnot hd.1).2
      rw [heval] at hassigns
      exact hands_of_report hroutine he hassigns
  | input name => exact absurd rfl (h.reads_nothing name)
  | print items =>
    cases hfails with
    | items heval =>
      have hprints := ((h.traps_or_prints hwell hnumeric).resolve_left fun hd => hnot hd.1).2
      rcases hprints with
        ⟨values, text, -, htext, -⟩ | ⟨fault', r', printed, hfault, hr', hhands⟩
      · rw [heval] at htext
        cases htext
      · rw [heval] at hfault
        cases hfault
        cases he
        rw [hroutine] at hr'
        cases hr'
        exact ⟨printed, hhands⟩
    | output => cases he
  | cond lhs op rhs body ih =>
    rcases not_or.1 hnot with ⟨hsides, hbody⟩
    have htests := ((h.traps_or_tests hwell hnumeric rfl).resolve_left fun hd => hsides hd.1).2
    rcases Stmt.active_cond_cases s.store lhs op rhs body with
      ⟨l, r', hl, hr, hholds, hactive⟩ | ⟨-, hactive⟩
    · rw [hactive] at hfails
      rw [hl, hr, Tests, if_pos hholds] at htests
      rcases htests with ⟨n, m, hsteps, hmcontrol, hmcells, hmstack⟩
      obtain ⟨printed, k, p', hrest, hhanded⟩ :=
        ih (h.body rfl hmcontrol hmcells hmstack)
          (fun hdivides => hbody ⟨⟨l, r', hl, hr, hholds⟩, hdivides⟩) hfails
      exact ⟨printed, n + k, p', hsteps.trans hrest, hhanded⟩
    · rw [hactive] at hfails
      cases hfails with
      | condLeft hl =>
        rw [hl] at htests
        exact hands_of_report hroutine he htests
      | condRight hl hr =>
        rw [hl, hr] at htests
        exact hands_of_report hroutine he htests
  | goto target => cases hfails
  | gosub target => cases hfails
  | ret =>
    cases hfails with
    | ret =>
      cases he
      cases hroutine
  | stop => cases hfails

/-- The code of a statement that comes to the division of -32768 by 1 stops there, and shows at most
what it printed before. -/
theorem exists_traps_of_divides (hwell : checked.WellFormed) (hnumeric : checked.IsNumeric)
    {i : Nat} {stmt : Stmt} {st : LoweringState} {q : Nat} {s : State} {p : Processor}
    (h : AtStatement checked i stmt st q s p) (hdivides : stmt.Divides s.store (-32768) 1) :
    ∃ printed : List Value, Traps checked.listing p (printed.map Value.observation) := by
  induction stmt generalizing st q p with
  | assign name value =>
    exact ⟨[], ((h.traps_or_assigns hwell hnumeric).resolve_right fun hd => hd.1 hdivides).2⟩
  | print items =>
    exact ((h.traps_or_prints hwell hnumeric).resolve_right fun hd => hd.1 hdivides).2
  | cond lhs op rhs body ih =>
    rcases h.traps_or_tests hwell hnumeric rfl with ⟨-, htraps⟩ | ⟨hnot, htests⟩
    · exact ⟨[], htraps⟩
    · obtain ⟨⟨l, r, hl, hr, hholds⟩, hbody⟩ := hdivides.resolve_left hnot
      rw [hl, hr, Tests, if_pos hholds] at htests
      rcases htests with ⟨n, m, hsteps, hmcontrol, hmcells, hmstack⟩
      obtain ⟨printed, htraps⟩ := ih (h.body rfl hmcontrol hmcells hmstack) hbody
      exact ⟨printed, htraps.of_steps hsteps⟩
  | _ => cases hdivides

end Statements

end LineBasic
