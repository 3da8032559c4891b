import LineBasic.Proofs.Lowering.Statement
import LineBasic.Proofs.Machine.ControlFlow

/-!
# Code of lines

At the label of a line a processor announces the line and goes through the code of its statement.
What stands between that code and the next line does nothing, and neither does the preamble.

Main definition:

- `Checked.Tracks`: a processor is where a machine is.

Main results:

- `exists_tracks_start`: the preamble leads to the first line.
- `exists_tracks_of_advance`: the code of a line that succeeds leads to where the machine is.
- `hands_of_advance`: the code of a line whose arithmetic faults reports the fault.
- `exists_traps_of_nextDivides`: the code of a line that comes to a division that cannot be made.
- `hands_of_passed`: behind the last line there is nothing to execute.
-/

namespace LineBasic

open Assembly Machine

/-! ## Items that do nothing -/

/-- An item that only lets control pass. -/
def Assembly.Item.isQuiet : Item → Bool
  | blank | comment _ | directive _ | label (.inner _) | instr .cld => true
  | _ => false

/-- Control passes an item that does nothing. -/
theorem step?_of_isQuiet {listing : List Item} {p : Processor} {q : Nat} {item : Item}
    (hcontrol : p.control = .running q) (hitem : listing[q]? = some item)
    (hquiet : item.isQuiet = true) : step? listing p = some ([], p.goTo (q + 1)) := by
  rw [step?, hcontrol]
  simp only [hitem]
  cases item with
  | label l =>
    cases l with
    | inner s => rfl
    | _ => cases hquiet
  | instr i =>
    cases i with
    | cld => rfl
    | _ => cases hquiet
  | noted i note => cases hquiet
  | storage l s => cases hquiet
  | _ => rfl

/-- Control passes any number of such items. -/
theorem steps_of_isQuiet {listing : List Item} {p : Processor} {q k : Nat}
    (hcontrol : p.control = .running q)
    (hquiet : ∀ j < k, ∃ item, listing[q + j]? = some item ∧ item.isQuiet = true) :
    Steps listing k p [] (p.goTo (q + k)) := by
  induction k generalizing p q with
  | zero =>
    have hsame : p.goTo (q + 0) = p := by
      rcases p with ⟨control, registers, flags, cells, stack⟩
      cases hcontrol
      rfl
    rw [hsame]
    exact .refl
  | succ k ih =>
    rcases hquiet 0 (Nat.succ_pos k) with ⟨item, hitem, hfirst⟩
    have hrest : Steps listing k (p.goTo (q + 1)) [] ((p.goTo (q + 1)).goTo (q + 1 + k)) := by
      refine ih rfl fun j hj => ?_
      rw [Nat.add_assoc, Nat.add_comm 1 j]
      exact hquiet (j + 1) (by omega)
    rw [Nat.add_assoc, Nat.add_comm 1 k] at hrest
    exact .head (step?_of_isQuiet hcontrol hitem hfirst) hrest

/-! ## Lines in the listing -/

section Layout

variable {scope : Scope} {program : Program}

/-- The preamble does nothing. -/
theorem exists_quiet_preamble {j : Nat} (h : j < preamble.length) :
    ∃ item, (Image.ofProgram scope program).listing[j]? = some item ∧ item.isQuiet = true := by
  have hall : ∀ item ∈ preamble, item.isQuiet = true := by simp [preamble, Item.isQuiet]
  refine ⟨preamble[j], ?_, hall _ (List.getElem_mem h)⟩
  rw [Image.listing_eq, List.append_assoc, List.getElem?_append_left h, List.getElem?_eq_getElem h]

/-- The label at the end of a line. -/
theorem getElem?_lineEnd (hnumbered : program.WellNumbered) {i : Nat} {line : Line}
    (h : program.lines[i]? = some line) :
    (Image.ofProgram scope program).listing[linePosition scope program (i + 1) - 2]? =
      some (.label (.inner .lineEnd)) := by
  have hbody : Placed (Image.ofProgram scope program).listing _ _ := placed_lineBody hnumbered h
  have hend := hbody.right.head
  have hplace : linePosition scope program i + 1 + (lineBody scope program i line).length =
      linePosition scope program (i + 1) - 2 := by
    rw [linePosition_succ h]
    omega
  rwa [hplace] at hend

variable (scope) in
/-- The two items in front of a line do nothing. -/
theorem exists_quiet_before_linePosition (hnumbered : program.WellNumbered) {i : Nat}
    (h : i ≤ program.lines.length) {j : Nat} (hj : j < 2) :
    ∃ item, (Image.ofProgram scope program).listing[linePosition scope program i - 2 + j]? =
      some item ∧ item.isQuiet = true := by
  have hbound : 8 ≤ linePosition scope program i := by
    change 8 ≤ 7 + _ + 1
    omega
  rcases Nat.lt_succ_iff_lt_or_eq.1 hj with hfirst | rfl
  · obtain rfl : j = 0 := by omega
    cases i with
    | zero => exact exists_quiet_preamble (Nat.lt_succ_self 6)
    | succ i =>
      have hline := List.getElem?_eq_getElem (Nat.lt_of_succ_le h)
      exact ⟨_, getElem?_lineEnd hnumbered hline, rfl⟩
  · have hplace : linePosition scope program i - 2 + 1 = linePosition scope program i - 1 := by
      omega
    rw [hplace]
    exact ⟨_, getElem?_before_linePosition h, rfl⟩

variable (scope) in
/-- The texts numbered up to a line are the first ones that are stored. -/
theorem exists_pool_eq (program : Program) (i : Nat) :
    ∃ more, (Image.ofProgram scope program).pool.texts =
      (stateBefore scope program.lines i).pool.texts ++ more := by
  obtain ⟨more, hmore⟩ := pool_extends_lowerLines scope (program.lines.drop i)
    (stateBefore scope program.lines i)
  refine ⟨more, ?_⟩
  rw [← hmore]
  change ((lowerLines scope program.lines).run {}).2.pool.texts = _
  conv => lhs; rw [← List.take_append_drop i program.lines]
  rw [lowerLines_append]
  rfl

variable (scope) in
/-- The texts numbered up to a line are stored in the listing of the whole program. -/
theorem stored_stateBefore (program : Program) (i : Nat) :
    Stored (Image.ofProgram scope program).listing (stateBefore scope program.lines i) := by
  intro k text hk
  refine textAt?_literal ?_
  obtain ⟨more, hpool⟩ := exists_pool_eq scope program i
  have hlt := (List.getElem?_eq_some_iff.1 hk).1
  rw [hpool, List.getElem?_append_left hlt, hk]

/-- What is numbered behind a line is what its statement leaves. -/
theorem stateBefore_succ {i : Nat} {line : Line} (h : program.lines[i]? = some line) :
    stateBefore scope program.lines (i + 1) =
      ((lowerStmt scope line.stmt).run (stateBefore scope program.lines i)).2 := by
  unfold stateBefore
  rw [take_succ_of_getElem? h, lowerLines_append]
  rfl

end Layout

/-! ## A processor that follows a machine -/

/-- A processor is where a machine is: its cells hold what the variables do, and control is at
the next line with the places to come back to on the stack, or the program has ended. -/
structure Checked.Tracks (checked : Checked) (s : State) (p : Processor) : Prop where
  mirrors : Mirrors s.store p.cells
  control_eq : p.control = match s.next with
    | some i => .running (checked.position i)
    | none => .handed .terminateProgram
  stack_eq : s.next ≠ none → p.stack = s.returns.map checked.returnWord

section Tracks

variable {checked : Checked}

/-- A processor that arrives gets to the next line. -/
theorem exists_tracks_of_arrives (hwell : checked.WellFormed) {s : State} {p : Processor}
    (hnext : ∀ j, s.next = some j → j ≤ checked.program.lines.length)
    (h : Arrives checked s p) :
    ∃ k p', Steps checked.listing k p [] p' ∧ checked.Tracks s p' := by
  rcases h with ⟨hmirrors, harrived⟩
  cases hs : s.next with
  | none =>
    rw [hs] at harrived
    refine ⟨0, p, .refl, hmirrors, ?_, fun hne => absurd hs hne⟩
    rw [hs]
    exact harrived
  | some j =>
    rw [hs] at harrived
    rcases harrived with ⟨hstack, hthere | hbefore⟩
    · refine ⟨0, p, .refl, hmirrors, ?_, fun _ => hstack⟩
      rw [hs]
      exact hthere
    · have hsteps := steps_of_isQuiet hbefore fun k hk =>
        exists_quiet_before_linePosition checked.scope hwell.numbered (hnext j hs) hk
      have hplace : checked.position j - 2 + 2 = checked.position j := by
        have hbound : 8 ≤ checked.position j := by
          change 8 ≤ 7 + _ + 1
          omega
        omega
      rw [hplace] at hsteps
      refine ⟨2, _, hsteps, hmirrors, ?_, fun _ => hstack⟩
      rw [hs]
      rfl

variable {s : State} {p : Processor} {i : Nat} {line : Line}

/-- At the label of a line the line is announced. -/
theorem Checked.Tracks.step?_eq (h : checked.Tracks s p) (hnext : s.next = some i)
    (hline : checked.program.lines[i]? = some line) :
    step? checked.listing p = some ([.line line.number], p.goTo (checked.position i + 1)) := by
  have hcontrol := h.control_eq
  rw [hnext] at hcontrol
  have hitem : checked.listing[checked.position i]? = some (.label (.line line.number)) :=
    getElem?_linePosition hline
  rw [step?, hcontrol]
  simp only [hitem]

/-- Behind its label a processor is at the statement of a line. -/
theorem Checked.Tracks.atStatement (hwell : checked.WellFormed) (hnumeric : checked.IsNumeric)
    (hstore : s.store.symbols = checked.scope.symbols) (h : checked.Tracks s p)
    (hnext : s.next = some i) (hline : checked.program.lines[i]? = some line) :
    AtStatement checked i line.stmt (stateBefore checked.scope checked.program.lines i)
      (checked.position i + 1) (s.enter i line) (p.goTo (checked.position i + 1)) := by
  have hmem := List.mem_of_getElem? hline
  have hbody : Placed checked.listing (checked.position i + 1)
      (lineBody checked.scope checked.program i line ++ [.label (.inner .lineEnd)]) :=
    placed_lineBody hwell.numbered hline
  have hlength : checked.position i + 1 +
      (lineBody checked.scope checked.program i line).length = checked.position (i + 1) - 2 := by
    unfold Checked.position
    rw [linePosition_succ hline]
    omega
  exact {
    next_eq := rfl
    typed := hwell.typed line hmem
    canonical := hwell.canonical line hmem
    reads_nothing := hnumeric.reads_nothing line hmem
    target_mem := hwell.numbered.target_mem line hmem
    symbols_eq := hstore
    placed := hbody.left
    length_eq := hlength
    resolve_lineEnd := fun k hk => by
      rw [← hlength]
      refine hbody.resolve _ k .lineEnd ?_ ?_
      · rw [List.getElem?_append_right (Nat.le_refl _), Nat.sub_self]
        rfl
      · rw [List.length_append]
        exact Nat.lt_add_right 1 hk
    stored := by
      have hstored := stored_stateBefore checked.scope checked.program (i + 1)
      rwa [stateBefore_succ hline] at hstored
    control_eq := rfl
    mirrors := h.mirrors
    stack_eq := h.stack_eq (by rw [hnext]; simp) }

/-- The next line of a machine comes to the division of `a` by `b`. -/
def Checked.NextDivides (checked : Checked) (s : State) (a b : Int16) : Prop :=
  ∃ i line, s.next = some i ∧ checked.program.lines[i]? = some line ∧ line.stmt.Divides s.store a b

/-- The code of a line that comes to the division of -32768 by 1 stops there, and shows at most what
the line printed before. -/
theorem exists_traps_of_nextDivides (hwell : checked.WellFormed) (hnumeric : checked.IsNumeric)
    {input : List UInt8} {room : Option Nat} {trace : List Event}
    (hhistory : History checked.program checked.scope (.start checked.scope input room) trace s)
    (h : checked.Tracks s p) (hdivides : checked.NextDivides s (-32768) 1) :
    ∃ i line printed, s.next = some i ∧ checked.program.lines[i]? = some line ∧
      line.stmt.Divides s.store (-32768) 1 ∧
      Traps checked.listing p (.line line.number :: List.map Value.observation printed) := by
  obtain ⟨i, line, hnext, hline, hstmt⟩ := hdivides
  have hat := h.atStatement hwell hnumeric (hwell.symbols_eq hhistory) hnext hline
  obtain ⟨printed, htraps⟩ := exists_traps_of_divides hwell hnumeric hat hstmt
  exact ⟨i, line, printed, hnext, hline, hstmt,
    htraps.of_steps (.head (h.step?_eq hnext hline) .refl)⟩

/-- The code of a line that succeeds leads to where the machine is, and shows what the line
prints. -/
theorem exists_tracks_of_advance (hwell : checked.WellFormed) (hnumeric : checked.IsNumeric)
    {input : List UInt8} {room : Option Nat} {trace : List Event} {s' : State} {event : Event}
    (hhistory : History checked.program checked.scope (.start checked.scope input room) trace s)
    (h : checked.Tracks s p) (hnot : ¬ checked.NextDivides s (-32768) 1)
    (hadvance : Advance checked.program checked.scope s event s') (hok : event.error = none) :
    ∃ shown k p', event.stmt.Shows s.store shown ∧
      Steps checked.listing k (p.goTo (checked.position event.index + 1)) shown p' ∧
      checked.Tracks s' p' := by
  have hinside := hwell.next_le (hhistory.trans (.single hadvance))
  obtain ⟨line, hnext, hline, hstmt, ⟨-, hperforms⟩ | ⟨e, herror, -⟩⟩ :=
    hadvance.performs_or_fails
  · have hat := h.atStatement hwell hnumeric (hwell.symbols_eq hhistory) hnext hline
    rw [hstmt] at hperforms ⊢
    obtain ⟨shown, hshows, n, m, hsteps, harrives⟩ := runsTo_of_performs hwell hnumeric hat
      (fun hdivides => hnot ⟨_, line, hnext, hline, hdivides⟩) hperforms
    rcases exists_tracks_of_arrives hwell hinside harrives with ⟨k, p', hrest, htracks⟩
    have hall := hsteps.trans hrest
    rw [List.append_nil] at hall
    exact ⟨shown, n + k, p', hshows, hall, htracks⟩
  · rw [hok] at herror
    cases herror

/-- The code of a line whose arithmetic faults reports the fault, and shows at most what the
line printed before. -/
theorem hands_of_advance (hwell : checked.WellFormed) (hnumeric : checked.IsNumeric)
    {input : List UInt8} {room : Option Nat} {trace : List Event} {s' : State} {event : Event}
    (hhistory : History checked.program checked.scope (.start checked.scope input room) trace s)
    (h : checked.Tracks s p) (hnot : ¬ checked.NextDivides s (-32768) 1)
    (hadvance : Advance checked.program checked.scope s event s') {number : Int16} {fault : Fault}
    {r : Routine}
    (herror : event.error = some (.onLine number fault)) (hroutine : fault.routine? = some r) :
    ∃ printed : List Value, Hands checked.listing (p.goTo (checked.position event.index + 1))
      (printed.map Value.observation) r := by
  rcases hadvance.performs_or_fails with ⟨line, hnext, hline, hstmt, ⟨hnone, -⟩ | ⟨e, he, hfails⟩⟩
  · rw [herror] at hnone
    cases hnone
  · rw [herror] at he
    cases he
    have hat := h.atStatement hwell hnumeric (hwell.symbols_eq hhistory) hnext hline
    rw [hstmt] at hfails
    rw [hfails.eq_blame] at hfails
    exact hands_of_fails hwell hnumeric hat
      (fun hdivides => hnot ⟨_, line, hnext, hline, hdivides⟩) hroutine hfails

/-- Behind the last line the program is left. -/
theorem hands_of_passed (h : checked.Tracks s p)
    (hnext : s.next = some checked.program.lines.length) :
    ∃ p', Steps checked.listing 1 p [] p' ∧ p'.control = .handed .pcOutOfRange := by
  have hcontrol := h.control_eq
  rw [hnext] at hcontrol
  have hitem : checked.listing[checked.position checked.program.lines.length]? =
      some (.instr (.jmp (.routine .pcOutOfRange))) := getElem?_linePosition_length
  exact ⟨_, .silent hcontrol hitem rfl .refl, rfl⟩

end Tracks

/-! ## The start -/

/-- Variables that are given initial values hold initial values. -/
theorem initial?_of_lookup_foldl {symbols : List Symbol} {store : Store}
    (h : ∀ x v, store.lookup x = some v → Value.initial? v.type = some v) :
    ∀ x v, (symbols.foldl (fun store s => store.reset s.name s.type) store).lookup x = some v →
      Value.initial? v.type = some v := by
  induction symbols generalizing store with
  | nil => exact h
  | cons s rest ih =>
    refine ih fun x v hx => ?_
    have hreset : (store.reset s.name s.type).lookup x = some v := hx
    unfold Store.reset at hreset
    split at hreset
    · rename_i w hw
      rw [Store.lookup_put] at hreset
      split at hreset
      · cases hreset
        cases htype : s.type <;> rw [htype] at hw <;> cases hw <;> rfl
      · exact h x v hreset
    · exact h x v hreset

/-- A number in the store at the start is zero and belongs to a symbol. -/
theorem mem_symbols_of_lookup_ofSymbols {scope : Scope} (hglobal : scope.IsGlobal) {x : String}
    {n : Int16} (h : (Store.ofSymbols scope.symbols).lookup x = some (.integer n)) :
    n = 0 ∧ ⟨x, .integer⟩ ∈ scope.symbols := by
  constructor
  · have hinitial := initial?_of_lookup_foldl (by simp) x _ h
    cases hinitial
    rfl
  · rcases List.lookup_eq_some_iff.1 h with ⟨before, behind, hstore, -⟩
    rw [← Store.symbols_ofSymbols hglobal, hstore]
    simp [Store.symbols, Value.type]

/-- The preamble leads to the first line, where the cells hold the initial values. -/
theorem exists_tracks_start {checked : Checked} (hwell : checked.WellFormed)
    {p : Processor} (hfresh : p.IsFresh checked.listing) (input : List UInt8)
    (room : Option Nat) :
    ∃ k p', Steps checked.listing k p [] p' ∧
      checked.Tracks (.start checked.scope input room) p' := by
  have hquiet : ∀ j < preamble.length + 1,
      ∃ item, checked.listing[0 + j]? = some item ∧ item.isQuiet = true := by
    intro j hj
    rw [Nat.zero_add]
    rcases Nat.lt_succ_iff_lt_or_eq.1 hj with hinside | rfl
    · exact exists_quiet_preamble hinside
    · exact ⟨.blank, getElem?_before_linePosition (Nat.zero_le _), rfl⟩
  have hsteps : Steps checked.listing (preamble.length + 1) p [] (p.goTo (checked.position 0)) :=
    steps_of_isQuiet hfresh.control_eq hquiet
  refine ⟨_, _, hsteps, ?_, rfl, fun _ => hfresh.stack_eq⟩
  intro x n hx
  rcases mem_symbols_of_lookup_ofSymbols hwell.isGlobal hx with ⟨rfl, hmem⟩
  change p.cells (.var x) = _
  rw [hfresh.cells_eq]
  exact wordCells_var hmem

end LineBasic
