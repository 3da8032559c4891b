import Mathlib
import LineBasic.Proofs.Check.Renaming
import LineBasic.Proofs.Machine.History
import LineBasic.Proofs.Machine.StoreTyping

/-!
# Runs with other numbers and other names

A machine looks up numbers and names, and does nothing else with them.  A program with other
numbers in the same order and with other names goes from line to line as the program itself does:
it reads and prints the same, its variables hold the same values under the other names, and its
errors are on the lines with the other numbers.

Main definitions:

- `State.rename` and `RuntimeError.renumber`: states and errors with other numbers and names.
- `Store.HasNames`: a store holds values for the names in a list and for no others.

Main results:

- `eval_rename`: expressions have the same values.
- `Performs.rename` and `Fails.rename`: the rules for statements.
- `run_step_rename`: what one line does.
- `runFor_rename` and `runTimes_rename`: what whole runs do.
- `renamed_program_runs_alike`: the same for every accepted program.
-/

namespace LineBasic

open Machine

namespace Machine

section Definitions

variable (r : Renaming)

/-- A store with other names. -/
def Store.rename (store : Store) : Store :=
  store.map fun entry => (r.name entry.1, entry.2)

/-- A state with other names, at a line with another number. -/
def State.rename (s : State) : State :=
  { s with store := s.store.rename r, line := s.line.map r.number }

/-- An error on a line with another number. -/
def RuntimeError.renumber : RuntimeError → RuntimeError
  | pcOutOfRange line => .pcOutOfRange (line.map r.number)
  | onLine line fault => .onLine (r.number line) fault
  | stream e => .stream e

/-- The result of an action with other numbers and names. -/
def renameResult {α : Type} :
    EStateM.Result RuntimeError State α → EStateM.Result RuntimeError State α
  | .ok a s => .ok a (s.rename r)
  | .error e s => .error (e.renumber r) (s.rename r)

end Definitions

/-- The names that hold values are those in a list. -/
def Store.HasNames (names : List String) (store : Store) : Prop :=
  ∀ x, x ∈ store.map Prod.fst ↔ x ∈ names

variable {r : Renaming} {names : List String} {store : Store}

/-! ## Stores -/

namespace Store

theorem HasNames.subset (h : store.HasNames names) : store.map Prod.fst ⊆ names :=
  fun x hx => (h x).1 hx

/-- A value is put under its name, and all other names are still there. -/
theorem mem_map_fst_put_iff {store : Store} {name x : String} {v : Value} :
    x ∈ (store.put name v).map Prod.fst ↔ x = name ∨ x ∈ store.map Prod.fst := by
  induction store with
  | nil => simp [put]
  | cons entry rest ih =>
    rcases entry with ⟨y, w⟩
    by_cases h : y = name
    · simp [put, h]
    · rw [put, if_neg h, List.map_cons, List.mem_cons, ih, List.map_cons, List.mem_cons]
      exact or_left_comm

/-- No other names are there if a value is put under a name from the list. -/
theorem HasNames.put (h : store.HasNames names) {name : String} (hname : name ∈ names)
    (v : Value) : (store.put name v).HasNames names := by
  intro x
  rw [mem_map_fst_put_iff, h x]
  refine ⟨?_, .inr⟩
  rintro (rfl | hx)
  · exact hname
  · exact hx

/-- The same for an initial value. -/
theorem HasNames.reset (h : store.HasNames names) {name : String} (hname : name ∈ names)
    (type : SymbolType) : (store.reset name type).HasNames names := by
  unfold Store.reset
  split
  · exact h.put hname _
  · exact h

/-- The same for initial values one after the other. -/
theorem HasNames.foldl_reset (h : store.HasNames names) {type : SymbolType}
    {declared : List String} (hdeclared : declared ⊆ names) :
    (declared.foldl (fun store x => store.reset x type) store).HasNames names := by
  induction declared generalizing store with
  | nil => exact h
  | cons x rest ih =>
    rw [List.cons_subset] at hdeclared
    exact ih (h.reset hdeclared.1 type) hdeclared.2

/-- A value is put under the other name. -/
theorem put_rename (h : r.KeepsNames names) {store : Store}
    (hsub : store.map Prod.fst ⊆ names) {name : String} (hname : name ∈ names) (v : Value) :
    (store.put name v).rename r = (store.rename r).put (r.name name) v := by
  induction store with
  | nil => rfl
  | cons entry rest ih =>
    rcases entry with ⟨x, w⟩
    rw [List.map_cons, List.cons_subset] at hsub
    have hrest := ih hsub.2
    unfold Store.rename at hrest ⊢
    rw [put, List.map_cons, put, ← hrest]
    by_cases heq : x = name
    · simp [heq]
    · have hne : r.name x ≠ r.name name := fun hsame => heq (h.injective _ hsub.1 _ hname hsame)
      simp [heq, hne]

/-- A value is found under the other name. -/
theorem lookup_rename (h : r.KeepsNames names) {store : Store}
    (hsub : store.map Prod.fst ⊆ names) {name : String} (hname : name ∈ names) :
    (store.rename r).lookup (r.name name) = store.lookup name := by
  induction store with
  | nil => rfl
  | cons entry rest ih =>
    rcases entry with ⟨x, w⟩
    rw [List.map_cons, List.cons_subset] at hsub
    have hrest := ih hsub.2
    unfold Store.rename at hrest ⊢
    rw [List.map_cons, List.lookup_cons, List.lookup_cons, hrest]
    by_cases heq : name = x
    · simp [heq]
    · have hne : r.name name ≠ r.name x := fun hsame => heq (h.injective _ hname _ hsub.1 hsame)
      rw [beq_false_of_ne heq, beq_false_of_ne hne]

/-- A variable holds the value of the old one. -/
theorem get?_rename (h : r.KeepsNames names) (hstore : store.HasNames names) {name : String}
    (hname : name ∈ names) : (store.rename r).get? (r.name name) = store.get? name := by
  rw [get?, get?, h.upper_eq name hname, h.upper_name name hname]
  exact lookup_rename h hstore.subset hname

/-- A name from the list holds a value. -/
theorem exists_get? (h : r.KeepsNames names) (hstore : store.HasNames names) {name : String}
    (hname : name ∈ names) : ∃ v, store.get? name = some v := by
  rw [get?, h.upper_eq name hname, ← Option.isSome_iff_exists, List.lookup_isSome_iff]
  rcases List.mem_map.1 ((hstore name).2 hname) with ⟨entry, hentry, rfl⟩
  exact ⟨entry, hentry, beq_self_eq_true _⟩

/-- The initial value of a type is put under the other name. -/
theorem reset_rename (h : r.KeepsNames names) (hsub : store.map Prod.fst ⊆ names) {name : String}
    (hname : name ∈ names) (type : SymbolType) :
    (store.reset name type).rename r = (store.rename r).reset (r.name name) type := by
  unfold reset
  cases Value.initial? type with
  | none => rfl
  | some v => exact put_rename h hsub hname v

/-- Names from the list get initial values, and no others. -/
theorem map_fst_reset_subset (hsub : store.map Prod.fst ⊆ names) {name : String}
    (hname : name ∈ names) (type : SymbolType) :
    (store.reset name type).map Prod.fst ⊆ names := by
  unfold reset
  split
  · intro x hx
    rcases mem_map_fst_put_iff.1 hx with rfl | hx
    · exact hname
    · exact hsub hx
  · exact hsub

/-- Symbols get their initial values under the other names. -/
theorem foldl_reset_rename (h : r.KeepsNames names) {store : Store}
    (hsub : store.map Prod.fst ⊆ names) {symbols : List Symbol}
    (hsymbols : symbols.map Symbol.name ⊆ names) :
    (symbols.foldl (fun store s => store.reset s.name s.type) store).rename r =
      (symbols.map (Symbol.rename r)).foldl (fun store s => store.reset s.name s.type)
        (store.rename r) := by
  induction symbols generalizing store with
  | nil => rfl
  | cons s rest ih =>
    rw [List.map_cons, List.cons_subset] at hsymbols
    have hrest := ih (map_fst_reset_subset hsub hsymbols.1 s.type) hsymbols.2
    rw [reset_rename h hsub hsymbols.1] at hrest
    exact hrest

/-- Declared variables get their initial values under the other names. -/
theorem foldl_reset_map_rename (h : r.KeepsNames names) (hsub : store.map Prod.fst ⊆ names)
    {declared : List String} (hdeclared : declared ⊆ names) (type : SymbolType) :
    (declared.foldl (fun store x => store.reset x type) store).rename r =
      (declared.map r.name).foldl (fun store x => store.reset x type) (store.rename r) := by
  have hsymbols : (declared.map fun x => Symbol.mk x type).map Symbol.name ⊆ names := by
    simpa [Function.comp_def] using hdeclared
  have hall := foldl_reset_rename h hsub hsymbols
  rw [List.foldl_map, List.map_map, List.foldl_map] at hall
  rw [List.foldl_map]
  exact hall

end Store

/-! ## Expressions -/

section Expressions

/-- An expression has the value of the old one. -/
theorem eval_rename (h : r.KeepsNames names) (hstore : store.HasNames names) {e : Expr}
    (he : e.names ⊆ names) : eval (store.rename r) (e.rename r) = eval store e := by
  induction e with
  | number n => rfl
  | text content => rfl
  | name x =>
    have hx := he List.mem_cons_self
    rcases Store.exists_get? h hstore hx with ⟨v, hv⟩
    rw [Expr.rename, eval, eval, Store.get?_rename h hstore hx, hv]
  | binary op lhs rhs ihl ihr =>
    rw [Expr.names, List.append_subset] at he
    rw [Expr.rename, eval, eval, ihl he.1, ihr he.2]

/-- An expression has the number of the old one. -/
theorem evalNumber_rename (h : r.KeepsNames names) (hstore : store.HasNames names) {e : Expr}
    (he : e.names ⊆ names) : evalNumber (store.rename r) (e.rename r) = evalNumber store e := by
  rw [evalNumber, evalNumber, eval_rename h hstore he]

/-- Items have the text of the old ones. -/
theorem evalItems_rename (h : r.KeepsNames names) (hstore : store.HasNames names)
    {items : List Expr} (hitems : items.flatMap Expr.names ⊆ names) :
    evalItems (store.rename r) (items.map (Expr.rename r)) = evalItems store items := by
  induction items with
  | nil => rfl
  | cons e rest ih =>
    rw [List.flatMap_cons, List.append_subset] at hitems
    rw [List.map_cons, evalItems, evalItems, eval_rename h hstore hitems.1, ih hitems.2]

/-- Conditions come down to what they came down to. -/
theorem active_rename (h : r.KeepsNames names) (hstore : store.HasNames names) {s : Stmt}
    (hs : s.names ⊆ names) : (s.rename r).active (store.rename r) = (s.active store).rename r := by
  induction s with
  | cond lhs op rhs body ih =>
    rw [Stmt.names, List.append_subset, List.append_subset] at hs
    rcases hs with ⟨⟨hlhs, hrhs⟩, hbody⟩
    rw [Stmt.rename, Stmt.active, Stmt.active, evalNumber_rename h hstore hlhs,
      evalNumber_rename h hstore hrhs, ih hbody]
    split
    · split <;> rfl
    · rfl
  | _ => rfl

end Expressions

/-! ## Statements -/

section Statements

variable {program : Program} {scope : Scope} {stmt : Stmt} {s s' : State}

/-- The line with the other number is where the old one was. -/
theorem findLine?_rename (hr : r.Fits program) {t : Int16}
    (ht : t ∈ program.lines.map Line.number) :
    findLine? (program.rename r) (r.number t) = findLine? program t := by
  have hsame : ∀ line ∈ program.lines,
      ((line.rename r).number == r.number t) = (line.number == t) := by
    intro line hline
    rw [Bool.eq_iff_iff, beq_iff_eq, beq_iff_eq]
    exact hr.number_inj (List.mem_map_of_mem hline) ht
  rw [findLine?, findLine?, Program.rename, List.findIdx?_map]
  -- the induction is on the lines alone, whatever program they belong to
  revert hsame
  generalize program.lines = lines
  intro hsame
  induction lines with
  | nil => rfl
  | cons line rest ih =>
    rw [List.forall_mem_cons] at hsame
    rw [List.findIdx?_cons, List.findIdx?_cons, ih hsame.2, Function.comp_apply, hsame.1]

/-- A statement that succeeds does so with other numbers and names. -/
theorem Performs.rename (hr : r.Fits program) (hscope : r.FitsScope program.names scope)
    (hnames : stmt.names ⊆ program.names)
    (htarget : ∀ t, stmt.target? = some t → t ∈ program.lines.map Line.number)
    (hstore : s.store.HasNames program.names) (h : Performs program scope s stmt s') :
    Performs (program.rename r) (scope.rename r) (s.rename r) (stmt.rename r) (s'.rename r) := by
  have hkeeps := hr.keepsNames
  have hsub := hstore.subset
  -- names occur in the store and nowhere else in a state
  cases h with
  | @declare type declared =>
    have hdeclared : declared ⊆ program.names := hnames
    change Performs _ _ _ _ { s.rename r with store := Store.rename r (declared.foldl _ s.store) }
    rw [Store.foldl_reset_map_rename hkeeps hsub hdeclared]
    exact .declare
  | @assign name value v heval =>
    rw [Stmt.names, List.cons_subset] at hnames
    change Performs _ _ _ _ { s.rename r with store := Store.rename r _ }
    rw [Store.put_rename hkeeps hsub hnames.1]
    exact .assign ((eval_rename hkeeps hstore hnames.2).trans heval)
  | @inputText name text rest htype hread =>
    have hname := hnames List.mem_cons_self
    change Performs _ _ _ _ { s.rename r with store := Store.rename r _, input := rest }
    rw [Store.put_rename hkeeps hsub hname]
    exact .inputText ((hscope.typeOf?_rename hname).trans htype) hread
  | @inputNumber name n rest htype hread =>
    have hname := hnames List.mem_cons_self
    change Performs _ _ _ _ { s.rename r with store := Store.rename r _, input := rest }
    rw [Store.put_rename hkeeps hsub hname]
    exact .inputNumber (by rwa [hscope.typeOf?_rename hname]) hread
  | print heval hwrite => exact .print ((evalItems_rename hkeeps hstore hnames).trans heval) hwrite
  | skip hlhs hrhs hfalse =>
    rw [Stmt.names, List.append_subset, List.append_subset] at hnames
    exact .skip ((evalNumber_rename hkeeps hstore hnames.1.1).trans hlhs)
      ((evalNumber_rename hkeeps hstore hnames.1.2).trans hrhs) hfalse
  | goto hfind => exact .goto ((findLine?_rename hr (htarget _ rfl)).trans hfind)
  | goNowhere hfind => exact .goNowhere ((findLine?_rename hr (htarget _ rfl)).trans hfind)
  | gosub hfind => exact .gosub ((findLine?_rename hr (htarget _ rfl)).trans hfind)
  | callNowhere hfind => exact .callNowhere ((findLine?_rename hr (htarget _ rfl)).trans hfind)
  | ret hreturns => exact .ret hreturns
  | stop => exact .stop

/-- A fault on a line is one on the line with the other number. -/
theorem State.blame_rename {number : Int16} (hline : s.line = some number) (fault : Fault) :
    (s.rename r).blame fault = (s.blame fault).renumber r := by
  simp [State.blame, State.rename, RuntimeError.renumber, hline]

/-- Input that gives no value does so on the line with the other number. -/
theorem State.inputError_rename {number : Int16} (hline : s.line = some number)
    (cause : ReadError) : (s.rename r).inputError cause = (s.inputError cause).renumber r := by
  cases cause with
  | endOfInput => exact blame_rename hline _
  | invalidText => rfl

/-- A statement that fails does so with other numbers and names. -/
theorem Fails.rename (hscope : r.FitsScope names scope) (hnames : stmt.names ⊆ names)
    (hstore : s.store.HasNames names) {number : Int16} (hline : s.line = some number)
    {e : RuntimeError} (h : Fails scope s stmt e s') :
    Fails (scope.rename r) (s.rename r) (stmt.rename r) (e.renumber r) (s'.rename r) := by
  have hkeeps := hscope.keepsNames
  cases h with
  | assign heval =>
    rw [Stmt.names, List.cons_subset] at hnames
    rw [← State.blame_rename hline]
    exact .assign ((eval_rename hkeeps hstore hnames.2).trans heval)
  | inputText htype hread =>
    have hname := hnames List.mem_cons_self
    rw [← State.inputError_rename hline]
    exact .inputText ((hscope.typeOf?_rename hname).trans htype) hread
  | inputNumber htype hread =>
    have hname := hnames List.mem_cons_self
    rw [← State.inputError_rename hline]
    exact .inputNumber (by rwa [hscope.typeOf?_rename hname]) hread
  | items heval =>
    rw [← State.blame_rename hline]
    exact .items ((evalItems_rename hkeeps hstore hnames).trans heval)
  | output heval hwrite =>
    exact .output ((evalItems_rename hkeeps hstore hnames).trans heval) hwrite
  | condLeft hlhs =>
    rw [Stmt.names, List.append_subset, List.append_subset] at hnames
    rw [← State.blame_rename hline]
    exact .condLeft ((evalNumber_rename hkeeps hstore hnames.1.1).trans hlhs)
  | condRight hlhs hrhs =>
    rw [Stmt.names, List.append_subset, List.append_subset] at hnames
    rw [← State.blame_rename hline]
    exact .condRight ((evalNumber_rename hkeeps hstore hnames.1.1).trans hlhs)
      ((evalNumber_rename hkeeps hstore hnames.1.2).trans hrhs)
  | ret hreturns =>
    rw [← State.blame_rename hline]
    exact .ret hreturns

/-- A statement with names from the list leaves values for these and for no others. -/
theorem Performs.hasNames (hnames : stmt.names ⊆ names) (hstore : s.store.HasNames names)
    (h : Performs program scope s stmt s') : s'.store.HasNames names := by
  cases h with
  | declare => exact hstore.foldl_reset hnames
  | assign | inputText | inputNumber => exact hstore.put (hnames List.mem_cons_self) _
  | _ => exact hstore

end Statements

/-! ## Lines and runs -/

section Runs

variable {program : Program} {scope : Scope}

/-- What conditions come down to has no more names. -/
theorem names_active_subset {stmt : Stmt} (hnames : stmt.names ⊆ names) (store : Store) :
    (stmt.active store).names ⊆ names :=
  Stmt.active_of_body (P := fun stmt => stmt.names ⊆ names)
    (fun h => (List.append_subset.1 h).2) hnames store

/-- What conditions come down to jumps nowhere else. -/
theorem target_active_mem {numbers : List Int16} {stmt : Stmt}
    (htarget : ∀ t, stmt.target? = some t → t ∈ numbers) (store : Store) :
    ∀ t, (stmt.active store).target? = some t → t ∈ numbers :=
  Stmt.active_of_body (P := fun stmt => ∀ t, stmt.target? = some t → t ∈ numbers)
    (fun h => h) htarget store

/-- The execution of a statement with other numbers and names. -/
theorem run_exec_rename (hr : r.Fits program) (hscope : r.FitsScope program.names scope)
    {stmt : Stmt} (hnames : stmt.names ⊆ program.names)
    (htarget : ∀ t, stmt.target? = some t → t ∈ program.lines.map Line.number) {s : State}
    (hstore : s.store.HasNames program.names) {number : Int16} (hline : s.line = some number) :
    (exec (program.rename r) (scope.rename r) (stmt.rename r)).run (s.rename r) =
      renameResult r ((exec program scope stmt).run s) := by
  have hactive : (stmt.rename r).active (s.rename r).store = (stmt.active s.store).rename r :=
    active_rename hr.keepsNames hstore hnames
  have hnames' := names_active_subset hnames s.store
  cases hrun : (exec program scope stmt).run s with
  | ok u s' =>
    have hperforms := run_exec_eq_ok_iff.1 hrun
    refine run_exec_eq_ok_iff.2 ?_
    rw [hactive]
    exact hperforms.rename hr hscope hnames' (target_active_mem htarget s.store) hstore
  | error e s' =>
    have hfails := run_exec_eq_error_iff.1 hrun
    refine run_exec_eq_error_iff.2 ?_
    rw [hactive]
    exact hfails.rename hscope hnames' hstore hline

/-- The execution of a line with other numbers and names. -/
theorem run_step_rename (hr : r.Fits program) (hwell : program.WellNumbered)
    (hscope : r.FitsScope program.names scope) {s : State}
    (hstore : s.store.HasNames program.names) (i : Nat) :
    (step (program.rename r) (scope.rename r) i).run (s.rename r) =
      renameResult r ((step program scope i).run s) := by
  rw [run_step, run_step, Program.rename, List.getElem?_map]
  cases hline : program.lines[i]? with
  | none => rfl
  | some line =>
    have hmem := List.mem_of_getElem? hline
    have henter : (s.enter i line).store.HasNames program.names := hstore
    exact run_exec_rename hr hscope (Program.names_subset hmem) (hwell.target_mem line hmem)
      henter rfl

/-- A line leaves values for the variables of the program and for no others. -/
theorem Advance.hasNames {s s' : State} {event : Event} (hstore : s.store.HasNames program.names)
    (h : Advance program scope s event s') : s'.store.HasNames program.names := by
  rcases h.performs_or_fails with ⟨line, -, hline, hstmt, ⟨-, hperforms⟩ | ⟨e, -, hfails⟩⟩
  · rw [hstmt] at hperforms
    have hnames := Program.names_subset (List.mem_of_getElem? hline)
    have henter : (s.enter event.index line).store.HasNames program.names := hstore
    exact hperforms.hasNames (names_active_subset hnames s.store) henter
  · rw [hfails.store_eq]
    exact hstore

/-- So do any number of lines. -/
theorem History.hasNames {s s' : State} {trace : List Event}
    (hstore : s.store.HasNames program.names) (h : History program scope s trace s') :
    s'.store.HasNames program.names :=
  h.invariant hstore fun _ _ _ => Advance.hasNames

/-- A run of some lines with other numbers and names. -/
theorem runFor_rename (hr : r.Fits program) (hwell : program.WellNumbered)
    (hscope : r.FitsScope program.names scope) (n : Nat) {s : State}
    (hstore : s.store.HasNames program.names) :
    (runFor (program.rename r) (scope.rename r) n).run (s.rename r) =
      renameResult r ((runFor program scope n).run s) := by
  induction n generalizing s with
  | zero => rfl
  | succ n ih =>
    have hsame : (s.rename r).next = s.next := rfl
    rw [run_runFor_succ, run_runFor_succ, hsame]
    cases hnext : s.next with
    | none => rfl
    | some i =>
      simp only [run_step_rename hr hwell hscope hstore]
      cases hstep : (step program scope i).run s with
      | error e s' => rfl
      | ok u s' =>
        rcases run_step_eq_ok_iff.1 hstep with ⟨line, hline, -⟩
        exact ih (Advance.hasNames hstore (.ok hnext hline hstep))

/-- Runs one after the other with other numbers and names. -/
theorem runTimes_rename (hr : r.Fits program) (hwell : program.WellNumbered)
    (hscope : r.FitsScope program.names scope) (n : Nat) {s : State}
    (hstore : s.store.HasNames program.names) :
    runTimes (program.rename r) (scope.rename r) n (s.rename r) =
      ((runTimes program scope n s).1.map (Except.mapError (RuntimeError.renumber r)),
        (runTimes program scope n s).2.rename r) := by
  induction n generalizing s with
  | zero => rfl
  | succ n ih =>
    have hrun : (run (program.rename r) (scope.rename r)).run (s.rename r) =
        renameResult r ((run program scope).run s) :=
      runFor_rename hr hwell hscope lineLimit hstore
    rw [runTimes, runTimes, hrun]
    cases hfirst : (run program scope).run s with
    | ok ended m =>
      rcases history_of_runFor_eq_ok hfirst with ⟨trace, hhistory, -⟩
      simp only [renameResult, ih (hhistory.hasNames hstore)]
      rfl
    | error e m =>
      rcases history_of_runFor_eq_error hfirst with ⟨trace, hhistory, -⟩
      simp only [renameResult, ih (hhistory.hasNames hstore)]
      rfl

/-- At the start the variables of the program have values. -/
theorem hasNames_start (hscope : r.FitsScope program.names scope)
    (hnames : program.names ⊆ scope.symbols.map Symbol.name) (input : List UInt8)
    (room : Option Nat) : (State.start scope input room).store.HasNames program.names := by
  intro x
  have hkeys : (Store.ofSymbols scope.symbols).map Prod.fst = scope.symbols.map Symbol.name := by
    rw [← Store.map_name_symbols, Store.symbols_ofSymbols hscope.isGlobal]
  change x ∈ (Store.ofSymbols scope.symbols).map Prod.fst ↔ _
  rw [hkeys]
  exact ⟨fun hx => hscope.subset hx, fun hx => hnames hx⟩

/-- The state before the first line, with other names. -/
theorem start_rename (hscope : r.FitsScope program.names scope) (input : List UInt8)
    (room : Option Nat) :
    State.start (scope.rename r) input room = (State.start scope input room).rename r := by
  have hempty : ([] : Store).map Prod.fst ⊆ program.names := List.nil_subset _
  have hstore := Store.foldl_reset_rename hscope.keepsNames hempty hscope.subset
  unfold State.start State.rename Store.ofSymbols
  rw [hstore]
  rfl

end Runs

end Machine

/-- Other numbers and other names make no difference.  If the variables of an accepted program are
in capitals, its lines get other numbers in the same order and its variables get other distinct
names in capitals, then it is accepted as well.  On every input, any number of runs have the same
outcomes, with errors on the lines with the other numbers; they print the same, and leave the same
values under the other names.  From there on, any number of lines of one more run do the same. -/
theorem renamed_program_runs_alike {program : Program} {scope : Scope} {r : Renaming}
    (hr : r.Fits program) (hnumbers : program.checkNumbering = .ok ())
    (hscope : program.scope = .ok scope) :
    (program.rename r).checkNumbering = .ok () ∧
    (program.rename r).scope = .ok (scope.rename r) ∧
    ∀ (input : List UInt8) (room : Option Nat) (k : Nat),
      let old := runTimes program scope k (.start scope input room)
      let new := runTimes (program.rename r) (scope.rename r) k
        (.start (scope.rename r) input room)
      new.1 = old.1.map (Except.mapError (RuntimeError.renumber r)) ∧
      new.2.output = old.2.output ∧
      (∀ x ∈ program.names, new.2.get? (r.name x) = old.2.get? x) ∧
      ∀ n, (runFor (program.rename r) (scope.rename r) n).run new.2 =
        renameResult r ((runFor program scope n).run old.2) := by
  have hwell := Program.wellNumbered_of_checkNumbering hnumbers
  rcases Program.scope_rename hr hscope with ⟨hscope', hfits⟩
  refine ⟨Program.checkNumbering_rename hr hnumbers, hscope', fun input room k => ?_⟩
  have hstart := hasNames_start hfits (Program.names_subset_scope hr hscope) input room
  rcases history_of_runTimes program scope k (.start scope input room) with ⟨trace, hhistory⟩
  have hnames := hhistory.hasNames hstart
  intro old new
  have hnew : new = (old.1.map (Except.mapError (RuntimeError.renumber r)), old.2.rename r) := by
    rw [← runTimes_rename hr hwell hfits k hstart, ← start_rename hfits]
  rw [hnew]
  exact ⟨rfl, rfl, fun x hx => Store.get?_rename hr.keepsNames hnames hx,
    fun n => runFor_rename hr hwell hfits n hnames⟩

/-- A loop that divides by what it reads stops on the line with the other number. -/
theorem renamed_division_stops :
    ∃ (program : Program) (r : Renaming) (scope : Scope) (s : State),
      program = ⟨[⟨10, .declare .integer ["N", "Q"]⟩, ⟨20, .input "N"⟩,
        ⟨30, .assign "Q" (.binary .div (.number 10) (.name "N"))⟩, ⟨40, .goto 20⟩]⟩ ∧
      (program.rename r).scope = .ok scope ∧
      (runFor (program.rename r) scope 6).run (.start scope [53, 10, 48, 10] none) =
        .error (.onLine 300 .divisionByZero) s ∧
      s.get? "N2" = some (.integer 0) ∧ s.get? "Q2" = some (.integer 2) := by
  let program : Program :=
    ⟨[⟨10, .declare .integer ["N", "Q"]⟩, ⟨20, .input "N"⟩,
      ⟨30, .assign "Q" (.binary .div (.number 10) (.name "N"))⟩, ⟨40, .goto 20⟩]⟩
  let scope : Scope := ⟨⟨"GLOBAL", [⟨"N", .integer⟩, ⟨"Q", .integer⟩]⟩, []⟩
  let r : Renaming := ⟨fun n => 10 * n, fun x => x ++ "2"⟩
  have hr : r.Fits program := ⟨⟨by decide, by decide, by decide⟩, by simp [program, r]⟩
  have hnumbers : program.checkNumbering = .ok () := by cbv
  have hscope : program.scope = .ok scope := by cbv
  let final : State :=
    { store := [("N", .integer 0), ("Q", .integer 2)], next := some 3, line := some 30 }
  have hrun : (runFor program scope 6).run (.start scope [53, 10, 48, 10] none) =
      .error (.onLine 30 .divisionByZero) final := by cbv
  rcases renamed_program_runs_alike hr hnumbers hscope with ⟨-, hrenamed, hruns⟩
  have hsame := (hruns [53, 10, 48, 10] none 0).2.2.2 6
  have hstart : (runTimes program scope 0 (.start scope [53, 10, 48, 10] none)).2 =
      .start scope [53, 10, 48, 10] none := rfl
  rw [hstart, hrun] at hsame
  exact ⟨program, r, scope.rename r, final.rename r, rfl, hrenamed, hsame, by decide, by decide⟩

end LineBasic
