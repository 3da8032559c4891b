import LineBasic.Proofs.Lowering.Expression

/-!
# Code that writes variables

Assignments and declarations write the cells of variables.  Behind them the cells hold what the
variables do behind the statement.

Main definition:

- `Updates`: a run that gets to a place with cells that mirror a store.

Main results:

- `traps_or_assigns_lowerAssign`: the code of an assignment writes the value or reports its fault,
  unless it comes to a division that cannot be made.
- `updates_lowerResets`: the code of a declaration writes the initial values.
-/

namespace LineBasic

open Assembly Machine

/-! ## Cells -/

/-- What a store holds behind a write. -/
theorem Machine.Store.lookup_put (store : Store) (x : String) (v : Value) (y : String) :
    (store.put x v).lookup y = if y = x then some v else store.lookup y := by
  induction store with
  | nil =>
    by_cases h : y = x
    · simp [Store.put, h]
    · simp [Store.put, List.lookup_cons, beq_false_of_ne h, h]
  | cons entry rest ih =>
    rcases entry with ⟨z, w⟩
    by_cases hz : z = x
    · by_cases h : y = x
      · simp [Store.put, hz, h]
      · simp [Store.put, List.lookup_cons, hz, beq_false_of_ne h, h]
    · by_cases hy : y = z
      · have hne : y ≠ x := fun heq => hz (hy ▸ heq)
        simp [Store.put, hz, hy]
      · simp [Store.put, List.lookup_cons, hz, beq_false_of_ne hy, ih]

variable {listing : List Item} {scope : Scope} {store : Store}

/-- A write to a variable and to its cell. -/
theorem Mirrors.put {cells : Label → Option Word} (h : Mirrors store cells) (x : String)
    (n : Int16) :
    Mirrors (store.put x (.integer n)) (setCell cells (.var x) (.number n)) := by
  intro y m hy
  rw [Store.lookup_put] at hy
  unfold setCell
  by_cases heq : y = x
  · rw [if_pos heq] at hy
    cases hy
    rw [heq, if_pos rfl]
  · rw [if_neg heq] at hy
    have hne : Label.var y ≠ .var x := fun hsame => heq (Label.var.inj hsame)
    rw [if_neg hne]
    exact h y m hy

/-- A declared variable for numbers has a cell. -/
theorem exists_cell (hglobal : scope.IsGlobal) (hstore : store.symbols = scope.symbols)
    {x : String} (hupper : upper x = x) (hname : scope.typeOf? x = some .integer)
    {cells : Label → Option Word} (hmirrors : Mirrors store cells) :
    ∃ w, cells (.var x) = some w := by
  rcases exists_get?_of_typeOf? hglobal hstore hname with ⟨v, hget, hv⟩
  rcases v.eq_integer_of_type hv with ⟨n, rfl⟩
  have hlookup : store.lookup x = some (.integer n) := by
    rw [← hget, Store.get?, hupper]
  exact ⟨_, hmirrors x n hlookup⟩

/-! ## Writes -/

/-- A processor gets to a place of the listing with cells that mirror a store. -/
def Updates (listing : List Item) (p : Processor) (q : Nat) (store : Store)
    (stack : List Word) : Prop :=
  ∃ n p', Steps listing n p [] p' ∧ p'.control = .running q ∧ Mirrors store p'.cells ∧
    p'.stack = stack

/-- Where a run gets to, cells may be written. -/
theorem Updates.of_reaches {p : Processor} {q q' : Nat} {stack stack' : List Word}
    (h : Reaches listing p [] q stack)
    (hnext : ∀ m, m.control = .running q → m.cells = p.cells → m.stack = stack →
      Updates listing m q' store stack') : Updates listing p q' store stack' := by
  rcases h with ⟨n, m, hsteps, hcontrol, hcells, hstack⟩
  rcases hnext m hcontrol hcells hstack with ⟨k, p', hrest, hcontrol', hmirrors, hstack'⟩
  exact ⟨n + k, p', hsteps.trans hrest, hcontrol', hmirrors, hstack'⟩

/-- A number is moved into the cell of a variable. -/
theorem updates_mov {q : Nat} {width : Option Width} {src : Operand} {x : String} {n : Int16}
    (hitem : listing[q]? = some (.instr (.mov (.memory width (.label (.var x))) src)))
    (hwidth : width ≠ some .byte) {p : Processor} (hcontrol : p.control = .running q)
    (hread : p.read? src = some (.number n)) (hmirrors : Mirrors store p.cells)
    (hcell : ∃ w, p.cells (.var x) = some w) :
    Updates listing p (q + 1) (store.put x (.integer n)) p.stack := by
  rcases hcell with ⟨w, hw⟩
  have hmov : execInstr? listing q p (.mov (.memory width (.label (.var x))) src) =
      some ([], { p with
        cells := setCell p.cells (.var x) (.number n) }.goTo (q + 1)) := by
    rcases width with _ | _ | _
    · simp [execInstr?, hread, Processor.write?, hw]
    · exact absurd rfl hwidth
    · simp [execInstr?, hread, Processor.write?, hw]
  exact ⟨1, _, .silent hcontrol hitem hmov .refl, rfl, hmirrors.put x n, rfl⟩

/-- A number is taken from the stack into the cell of a variable. -/
theorem updates_pop {q : Nat} {x : String} {n : Int16} {rest : List Word}
    (hitem : listing[q]? = some (.instr (.pop (.memory (some .word) (.label (.var x))))))
    {p : Processor} (hcontrol : p.control = .running q) (hstack : p.stack = .number n :: rest)
    (hmirrors : Mirrors store p.cells) (hcell : ∃ w, p.cells (.var x) = some w) :
    Updates listing p (q + 1) (store.put x (.integer n)) rest := by
  rcases hcell with ⟨w, hw⟩
  have hpop : execInstr? listing q p (.pop (.memory (some .word) (.label (.var x)))) =
      some ([], { p with
        cells := setCell p.cells (.var x) (.number n)
        stack := rest }.goTo (q + 1)) := by
    simp [execInstr?, hstack, Processor.write?, hw]
  exact ⟨1, _, .silent hcontrol hitem hpop .refl, rfl, hmirrors.put x n, rfl⟩

/-! ## Assignments -/

/-- The value of an expression is assigned, or its fault is reported. -/
def Assigns (listing : List Item) (p : Processor) (q : Nat) (store : Store) (x : String) :
    Except Fault Value → Prop
  | .ok v => Updates listing p q (store.put x v) p.stack
  | .error fault => ∃ r, fault.routine? = some r ∧ Hands listing p [] r

/-- The code of an assignment writes the value or reports its fault, unless it comes to a division
that cannot be made. -/
theorem traps_or_assigns_lowerAssign (hglobal : scope.IsGlobal)
    (hstore : store.symbols = scope.symbols) {name : String} (hupper : upper name = name)
    (hname : scope.typeOf? name = some .integer)
    {value : Expr} (hitem : value.IsItem) (htype : value.type scope = .ok .integer)
    {st : LoweringState} {q : Nat}
    (hplaced : Placed listing q ((lowerAssign scope name value).run st).1) {p : Processor}
    (hcontrol : p.control = .running q) (hmirrors : Mirrors store p.cells) :
    value.Divides store (-32768) 1 ∧ Traps listing p [] ∨
      ¬ value.Divides store (-32768) 1 ∧
        Assigns listing p (q + ((lowerAssign scope name value).run st).1.length) store name
          (eval store value) := by
  have hcell := exists_cell hglobal hstore hupper hname hmirrors
  cases value with
  | number n =>
    have hword : p.read? (.constant (some .word) (.decimal n.toInt)) = some (.number n) := by
      simp [Processor.read?, Numeral.value]
    exact .inr ⟨id, updates_mov hplaced.head (by simp) hcontrol hword hmirrors hcell⟩
  | text content => cases htype
  | name x =>
    have hx := Scope.require_eq_ok_iff.1 htype
    rcases exists_read?_variableWord hglobal hstore hitem hx hmirrors with ⟨n, heval, hword⟩
    have hvariable : variableWord scope x = .cell (.var x) := by
      simp [variableWord, Scope.isString, hx]
    have hcode : ((lowerAssign scope name (.name x)).run st).1 =
        code [.mov .ax (.cell (.var x)), .mov (.cell (.var name)) .ax] := by
      have hstring : ¬ scope.isString name = true := by
        simp [Scope.isString, hname]
      rw [lowerAssign, if_neg hstring]
      rfl
    rw [hcode] at hplaced ⊢
    rw [hvariable] at hword
    rw [heval]
    let m : Processor := { p with registers := p.registers.set .ax (.number n) }.goTo (q + 1)
    have hload : execInstr? listing q p (.mov .ax (.cell (.var x))) = some ([], m) := by
      simp [execInstr?, hword, Processor.write?, m]
    obtain ⟨k, p', hrest, hend⟩ := updates_mov (p := m) hplaced.tail.head (by simp) rfl rfl
      hmirrors hcell
    exact .inr ⟨id, k + 1, p', .silent hcontrol hplaced.head hload hrest, hend⟩
  | binary op lhs rhs =>
    have hall : Placed listing q (((lowerExpr scope (.binary op lhs rhs)).run st).1 ++
        code [.pop (.memory (some .word) (.label (.var name)))]) := hplaced
    have hlength : ((lowerAssign scope name (.binary op lhs rhs)).run st).1.length =
        ((lowerExpr scope (.binary op lhs rhs)).run st).1.length + 1 := by
      change (_ ++ code [.pop (.memory (some .word) (.label (.var name)))]).length = _
      rw [List.length_append]
      rfl
    rw [eval_eq_map_evalNumber hglobal hstore htype, hlength, ← Nat.add_assoc]
    refine (traps_or_delivers_lowerExpr hglobal hstore hitem htype hall.left hcontrol
      hmirrors).imp id (And.imp_right fun hvalue => ?_)
    cases heval : evalNumber store (.binary op lhs rhs) with
    | error fault =>
      rw [heval] at hvalue
      exact hvalue
    | ok n =>
      rw [heval] at hvalue
      refine Updates.of_reaches hvalue fun m hmcontrol hmcells hmstack => ?_
      exact updates_pop hall.right.head hmcontrol hmstack (hmcells ▸ hmirrors) (hmcells ▸ hcell)

/-! ## Declarations -/

/-- The code of a declaration writes the initial values. -/
theorem updates_lowerResets (hglobal : scope.IsGlobal) (hstore : store.symbols = scope.symbols)
    {names : List String} (hupper : ∀ x ∈ names, upper x = x)
    (hnames : ∀ x ∈ names, scope.typeOf? x = some .integer) {q : Nat}
    (hplaced : Placed listing q (names.flatMap (lowerReset scope))) {p : Processor}
    (hcontrol : p.control = .running q) (hmirrors : Mirrors store p.cells) :
    Updates listing p (q + (names.flatMap (lowerReset scope)).length)
      (names.foldl (fun store x => store.reset x .integer) store) p.stack := by
  induction names generalizing store q p with
  | nil => exact ⟨0, p, .refl, hcontrol, hmirrors, rfl⟩
  | cons x rest ih =>
    have hx := hnames x List.mem_cons_self
    have hcell := exists_cell hglobal hstore (hupper x List.mem_cons_self) hx hmirrors
    have hreset : lowerReset scope x =
        code [.mov (.cell (.var x)) (.constant (some .word) (.decimal 0))] := by
      rw [lowerReset, if_neg (by simp [Scope.isString, hx])]
    have hall : Placed listing q
        (code [.mov (.cell (.var x)) (.constant (some .word) (.decimal 0))] ++
          rest.flatMap (lowerReset scope)) := by
      rw [List.flatMap_cons, hreset] at hplaced
      exact hplaced
    obtain ⟨n, m, hsteps, hmcontrol, hmmirrors, hmstack⟩ :=
      updates_mov (n := 0) hall.left.head (by simp) hcontrol rfl hmirrors hcell
    have hsame : (store.put x (.integer 0)).symbols = scope.symbols := by
      have hmem := hglobal.typeOf?_eq_some_iff.1 hx
      rw [hupper x List.mem_cons_self, ← hstore] at hmem
      rw [Store.symbols_put_of_mem (by rw [hstore]; exact hglobal.nodup) hmem, hstore]
    obtain ⟨k, p', hrest, hcontrol', hmirrors', hstack'⟩ := ih hsame
      (fun y hy => hupper y (List.mem_cons_of_mem _ hy))
      (fun y hy => hnames y (List.mem_cons_of_mem _ hy)) hall.right hmcontrol hmmirrors
    refine ⟨n + k, p', hsteps.trans hrest, ?_, hmirrors', hstack'.trans hmstack⟩
    rw [hcontrol', Nat.add_assoc, ← List.length_append, List.flatMap_cons, hreset]

end LineBasic
