import LineBasic.Proofs.Lowering.Expression

/-!
# Code of printed items

The code of an item prints what the item means.  The items of a statement are printed one after
the other, so that those in front of a fault are printed before it is reported.

Main definitions:

- `Machine.Value.observation`: what is seen when a value is printed.
- `Stored`: the texts in a pool have their storage in a listing.

Main results:

- `traps_or_prints_lowerItem` and `traps_or_prints_lowerItems`: the code of items prints their
  values, unless it comes to a division that cannot be made.
-/

namespace LineBasic

open Assembly Machine

/-- What is seen when a value is printed. -/
def Machine.Value.observation : Value → Observation
  | integer n => .number n
  | text content => .text content

variable {listing : List Item} {scope : Scope} {store : Store}

/-- The texts numbered so far are stored in a listing under their numbers. -/
def Stored (listing : List Item) (st : LoweringState) : Prop :=
  ∀ k text, st.pool.texts[k]? = some text → textAt? listing (.literal k) = some text

/-- Texts that are stored were so before further ones were numbered. -/
theorem Stored.of_emits {extra : List Spot} {st st' : LoweringState} {items : List Item}
    (h : Stored listing st') (hemits : Emits extra st items st') : Stored listing st := by
  intro k text hk
  rcases hemits.pool_extends with ⟨more, hmore⟩
  have hlt := (List.getElem?_eq_some_iff.1 hk).1
  exact h k text (by rw [hmore, List.getElem?_append_left hlt, hk])

/-! ## One item -/

/-- A routine that prints comes back behind its call. -/
theorem reaches_printOperand {q : Nat} {src : Operand} {w : Word} {r : Routine}
    {seen : List Observation} (hplaced : Placed listing q (printOperand src r)) {p : Processor}
    (hcontrol : p.control = .running q) (hread : p.read? src = some w)
    (hfinal : r.isFinal = false)
    (hseen : ∀ p' : Processor, p'.registers.dx = w → visible? listing p' r = some seen) :
    Reaches listing p seen (q + 2) p.stack := by
  let m : Processor := { p with registers := p.registers.set .dx w }.goTo (q + 1)
  have hmov : execInstr? listing q p (.mov .dx src) = some ([], m) := by
    simp [execInstr?, hread, Processor.write?, m]
  have hcall : execInstr? listing (q + 1) m (callRoutine r) = some (seen, m.goTo (q + 2)) := by
    simp [execInstr?, callRoutine, hfinal, hseen m rfl]
  have hsteps := Steps.silent hcontrol hplaced.head hmov
    (.instr rfl hplaced.tail.head hcall .refl)
  rw [List.append_nil] at hsteps
  exact ⟨2, _, hsteps, rfl, rfl, rfl⟩

/-- A number is printed. -/
theorem visible?_printNumber {n : Int16} (p : Processor) (h : p.registers.dx = .number n) :
    visible? listing p .printNumber = some [.number n] := by
  simp [visible?, h, Word.number?]

/-- A number is printed from the stack. -/
theorem reaches_printPopped {q : Nat} {n : Int16} {rest : List Word}
    (hplaced : Placed listing q (code [.pop .dx, callRoutine .printNumber])) {p : Processor}
    (hcontrol : p.control = .running q) (hstack : p.stack = .number n :: rest) :
    Reaches listing p [.number n] (q + 2) rest := by
  rcases p with ⟨control, registers, flags, cells, stack⟩
  cases hcontrol
  cases hstack
  let m : Processor := ⟨.running (q + 1), registers.set .dx (.number n), flags, cells, rest⟩
  have hcall : execInstr? listing (q + 1) m (callRoutine .printNumber) =
      some ([.number n], m.goTo (q + 2)) := rfl
  have hsteps : Steps listing 2 ⟨.running q, registers, flags, cells, .number n :: rest⟩
      [.number n] (m.goTo (q + 2)) :=
    .silent rfl hplaced.head rfl (.instr rfl hplaced.tail.head hcall .refl)
  exact ⟨2, _, hsteps, rfl, rfl, rfl⟩

/-- A text that is stored at a label is printed. -/
theorem visible?_printString {l : Label} {content : String}
    (hstored : textAt? listing l = some content) (p : Processor)
    (h : p.registers.dx = .data l) :
    visible? listing p .printString = some [.text content] := by
  simp [visible?, h, hstored]

/-- The value of an item is printed, or its fault is reported. -/
def Prints (listing : List Item) (p : Processor) (q : Nat) : Except Fault Value → Prop
  | .ok v => Reaches listing p [v.observation] q p.stack
  | .error fault => ∃ r, fault.routine? = some r ∧ Hands listing p [] r

/-- The code of an item prints its value or reports its fault, unless it comes to a division that
cannot be made. -/
theorem traps_or_prints_lowerItem (hglobal : scope.IsGlobal)
    (hnumbers : ∀ s ∈ scope.symbols, s.type = .integer) (hstore : store.symbols = scope.symbols)
    {e : Expr} (hitem : e.IsItem)
    (htype : ∃ type, e.type scope = .ok type) {st : LoweringState} {q : Nat}
    (hplaced : Placed listing q ((lowerItem scope e).run st).1)
    (hstored : Stored listing ((lowerItem scope e).run st).2) {p : Processor}
    (hcontrol : p.control = .running q) (hmirrors : Mirrors store p.cells) :
    e.Divides store (-32768) 1 ∧ Traps listing p [] ∨
      ¬ e.Divides store (-32768) 1 ∧
        Prints listing p (q + ((lowerItem scope e).run st).1.length) (eval store e) := by
  cases e with
  | number n =>
    have hword : p.read? (.dec n.toInt) = some (.number n) := by
      simp [Processor.read?, Numeral.value]
    exact .inr ⟨id, reaches_printOperand hplaced hcontrol hword rfl visible?_printNumber⟩
  | text content =>
    have htext := hstored _ _ (st.pool.intern_spec content).1
    exact .inr ⟨id, reaches_printOperand hplaced hcontrol rfl rfl (visible?_printString htext)⟩
  | name x =>
    rcases htype with ⟨type, htype⟩
    have hname := Scope.require_eq_ok_iff.1 htype
    obtain rfl : type = .integer := hnumbers _ (hglobal.typeOf?_eq_some_iff.1 hname)
    rcases exists_read?_variableWord hglobal hstore hitem hname hmirrors with ⟨n, heval, hword⟩
    have hroutine : (if scope.isString x then Routine.printString else .printNumber) =
        .printNumber := by
      simp [Scope.isString, hname]
    have hplaced' : Placed listing q (printOperand (variableWord scope x)
        (if scope.isString x then .printString else .printNumber)) := hplaced
    rw [hroutine] at hplaced'
    rw [heval]
    exact .inr ⟨id, reaches_printOperand hplaced' hcontrol hword rfl visible?_printNumber⟩
  | binary op lhs rhs =>
    rcases htype with ⟨type, htype⟩
    obtain rfl := (Expr.type_binary_eq_ok_iff.1 htype).1
    have hall : Placed listing q (((lowerExpr scope (.binary op lhs rhs)).run st).1 ++
        code [.pop .dx, callRoutine .printNumber]) := hplaced
    have hlength : ((lowerItem scope (.binary op lhs rhs)).run st).1.length =
        ((lowerExpr scope (.binary op lhs rhs)).run st).1.length + 2 := by
      change (_ ++ code [.pop .dx, callRoutine .printNumber]).length = _
      rw [List.length_append]
      rfl
    rw [eval_eq_map_evalNumber hglobal hstore htype]
    refine (traps_or_delivers_lowerExpr hglobal hstore hitem htype hall.left hcontrol
      hmirrors).imp id (And.imp_right fun hvalue => ?_)
    cases heval : evalNumber store (.binary op lhs rhs) with
    | error fault =>
      rw [heval] at hvalue
      exact hvalue
    | ok n =>
      rw [heval] at hvalue
      rw [hlength, ← Nat.add_assoc]
      exact hvalue.trans fun m hmcontrol _ hmstack =>
        reaches_printPopped hall.right hmcontrol hmstack

/-! ## Items one after the other -/

/-- The values of items are printed in their order, or those in front of the first fault are printed
and this is reported. -/
def PrintsAll (listing : List Item) (store : Store) (p : Processor) (q : Nat)
    (items : List Expr) : Prop :=
  (∃ values text, items.mapM (eval store) = .ok values ∧ evalItems store items = .ok text ∧
      Reaches listing p (values.map Value.observation) q p.stack) ∨
    ∃ (fault : Fault) (r : Routine) (printed : List Value),
      evalItems store items = .error fault ∧ fault.routine? = some r ∧
      Hands listing p (printed.map Value.observation) r

/-- A value that is printed is followed by those of the other items. -/
theorem PrintsAll.cons {e : Expr} {rest : List Expr} {v : Value} {n q : Nat} {p m : Processor}
    (heval : eval store e = .ok v) (hsteps : Steps listing n p [v.observation] m)
    (hcells : m.cells = p.cells) (hstack : m.stack = p.stack)
    (h : PrintsAll listing store m q rest) : PrintsAll listing store p q (e :: rest) := by
  rcases h with ⟨values, text, hvalues, htext, k, p', hrest, hcontrol', hcells', hstack'⟩ |
    ⟨fault, r, printed, hfault, hr, k, p', hrest, hhanded⟩
  · refine .inl ⟨v :: values, v.render ++ text, ?_, ?_, n + k, p', hsteps.trans hrest, hcontrol',
      hcells'.trans hcells, hstack'.trans hstack⟩
    · rw [List.mapM_cons, heval, hvalues]
      rfl
    · rw [evalItems, heval, htext]
      rfl
  · refine .inr ⟨fault, r, v :: printed, ?_, hr, n + k, p', hsteps.trans hrest, hhanded⟩
    rw [evalItems, heval, hfault]
    rfl

/-- The code of items prints their values or those in front of the first fault, unless it comes to a
division that cannot be made. -/
theorem traps_or_prints_lowerItems (hglobal : scope.IsGlobal)
    (hnumbers : ∀ s ∈ scope.symbols, s.type = .integer) (hstore : store.symbols = scope.symbols)
    {items : List Expr} (hitems : ∀ e ∈ items, e.IsItem)
    (htypes : ∀ e ∈ items, ∃ type, e.type scope = .ok type) {st : LoweringState} {q : Nat}
    (hplaced : Placed listing q ((lowerItems scope items).run st).1)
    (hstored : Stored listing ((lowerItems scope items).run st).2) {p : Processor}
    (hcontrol : p.control = .running q) (hmirrors : Mirrors store p.cells) :
    (ItemsDivide store (-32768) 1 items ∧
        ∃ printed : List Value, Traps listing p (printed.map Value.observation)) ∨
      ¬ ItemsDivide store (-32768) 1 items ∧
        PrintsAll listing store p (q + ((lowerItems scope items).run st).1.length) items := by
  induction items generalizing st q p with
  | nil => exact .inr ⟨id, .inl ⟨[], "", rfl, rfl, 0, p, .refl, hcontrol, rfl, rfl⟩⟩
  | cons e rest ih =>
    have hall : Placed listing q (((lowerItem scope e).run st).1 ++
        ((lowerItems scope rest).run ((lowerItem scope e).run st).2).1) := hplaced
    have hstored' : Stored listing
        ((lowerItems scope rest).run ((lowerItem scope e).run st).2).2 := hstored
    have hlength : q + ((lowerItems scope (e :: rest)).run st).1.length =
        q + ((lowerItem scope e).run st).1.length +
          ((lowerItems scope rest).run ((lowerItem scope e).run st).2).1.length := by
      rw [Nat.add_assoc, ← List.length_append]
      rfl
    rcases traps_or_prints_lowerItem hglobal hnumbers hstore (hitems e List.mem_cons_self)
      (htypes e List.mem_cons_self) hall.left (hstored'.of_emits (emits_lowerItems scope rest _))
      hcontrol hmirrors with ⟨hdivides, htraps⟩ | ⟨hnot, hfirst⟩
    · exact .inl ⟨.inl hdivides, [], htraps⟩
    cases heval : eval store e with
    | error fault =>
      rw [heval] at hfirst
      rcases hfirst with ⟨r, hr, hhands⟩
      rw [itemsDivide_cons_of_error heval]
      exact .inr ⟨hnot, .inr ⟨fault, r, [], by rw [evalItems, heval]; rfl, hr, hhands⟩⟩
    | ok v =>
      rw [heval] at hfirst
      rw [itemsDivide_cons_iff heval]
      rcases hfirst with ⟨n, m, hsteps, hmcontrol, hmcells, hmstack⟩
      rcases ih (fun d hd => hitems d (List.mem_cons_of_mem _ hd))
        (fun d hd => htypes d (List.mem_cons_of_mem _ hd)) hall.right hstored' hmcontrol
        (hmcells ▸ hmirrors) with ⟨hdivides, printed, htraps⟩ | ⟨hother, hprints⟩
      · exact .inl ⟨.inr hdivides, v :: printed, htraps.of_steps hsteps⟩
      · rw [hlength]
        exact .inr ⟨not_or.2 ⟨hnot, hother⟩, hprints.cons heval hsteps hmcells hmstack⟩

end LineBasic
