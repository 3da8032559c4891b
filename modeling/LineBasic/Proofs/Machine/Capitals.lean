import Mathlib
import LineBasic.Proofs.Check.Capitals
import LineBasic.Proofs.Lowering.Assignment
import LineBasic.Proofs.Machine.Renaming

/-!
# Runs in capitals

A machine reads names in capitals and writes them as they are spelled.  A line therefore does in
capitals what it does as it is, except that names that are not in capitals keep their values when
the line writes them.  If a program writes names in capitals only, its runs are those of the program
in capitals.

Main definitions:

- `Store.Covers`: names that hold values.

Main results:

- `eval_capitals`: expressions have the same values.
- `Performs.exists_capitals` and `Fails.capitals`: the rules for statements.
- `Advance.exists_capitals`: what one line does.
- `runTimes_capitals`: what whole runs do, if they write names in capitals only.
-/

namespace LineBasic.Machine

/-- Every name in a list holds a value. -/
def Store.Covers (store : Store) (names : List String) : Prop :=
  ∀ x ∈ names, ∃ v, store.get? x = some v

variable {store : Store} {names : List String}

/-! ## Stores -/

namespace Store

@[simp] theorem get?_upper (store : Store) (x : String) : store.get? (upper x) = store.get? x := by
  simp [get?]

/-- A name holds what has been put under its capitals. -/
theorem get?_put (store : Store) (name : String) (v : Value) (x : String) :
    (store.put name v).get? x = if upper x = name then some v else store.get? x :=
  lookup_put store name v (upper x)

/-- Names hold initial values that are put under their capitals. -/
theorem get?_foldl_reset (store : Store) (declared : List String) (type : DeclaredType)
    (x : String) :
    (declared.foldl (fun store y => store.reset y type.symbolType) store).get? x =
      if upper x ∈ declared then Value.initial? type.symbolType else store.get? x := by
  induction declared generalizing store with
  | nil => simp
  | cons y rest ih =>
    rcases Value.exists_initial type.symbolType_ne_void with ⟨v, hv, -⟩
    have hreset : store.reset y type.symbolType = store.put y v := by
      rw [reset, hv]
    rw [List.foldl_cons, ih, hreset, get?_put, hv]
    by_cases hrest : upper x ∈ rest
    · simp [hrest]
    · by_cases hy : upper x = y <;> simp [hrest, hy]

/-- Names keep holding values when one is written. -/
theorem Covers.put (h : store.Covers names) (name : String) (v : Value) :
    (store.put name v).Covers names := by
  intro x hx
  rw [get?_put]
  split
  · exact ⟨v, rfl⟩
  · exact h x hx

/-- Names keep holding values when some are declared. -/
theorem Covers.foldl_reset (h : store.Covers names) (declared : List String)
    (type : DeclaredType) :
    (declared.foldl (fun store y => store.reset y type.symbolType) store).Covers names := by
  rcases Value.exists_initial type.symbolType_ne_void with ⟨v, hv, -⟩
  intro x hx
  rw [get?_foldl_reset]
  split
  · exact ⟨v, hv⟩
  · exact h x hx

end Store

/-! ## Expressions -/

section Expressions

/-- In capitals an expression has the same value. -/
theorem eval_capitals {e : Expr} (h : store.Covers e.names) :
    eval store (e.rename .capitals) = eval store e := by
  induction e with
  | number n => rfl
  | text content => rfl
  | name x =>
    rcases h x List.mem_cons_self with ⟨v, hv⟩
    have hupper : store.get? (Renaming.capitals.name x) = some v :=
      (Store.get?_upper store x).trans hv
    rw [Expr.rename, eval, eval, hupper, hv]
  | binary op lhs rhs ihl ihr =>
    rcases List.forall_mem_append.1 h with ⟨hl, hr⟩
    rw [Expr.rename, eval, eval, ihl hl, ihr hr]

/-- In capitals an expression has the same number. -/
theorem evalNumber_capitals {e : Expr} (h : store.Covers e.names) :
    evalNumber store (e.rename .capitals) = evalNumber store e := by
  rw [evalNumber, evalNumber, eval_capitals h]

/-- In capitals items have the same text. -/
theorem evalItems_capitals {items : List Expr} (h : store.Covers (items.flatMap Expr.names)) :
    evalItems store (items.map (Expr.rename .capitals)) = evalItems store items := by
  induction items with
  | nil => rfl
  | cons e rest ih =>
    rw [List.flatMap_cons] at h
    rcases List.forall_mem_append.1 h with ⟨he, hrest⟩
    rw [List.map_cons, evalItems, evalItems, eval_capitals he, ih hrest]

/-- In capitals conditions come down to the same. -/
theorem active_capitals {s : Stmt} (h : store.Covers s.names) :
    (s.rename .capitals).active store = (s.active store).rename .capitals := by
  induction s with
  | cond lhs op rhs body ih =>
    rw [Stmt.names] at h
    rcases List.forall_mem_append.1 h with ⟨hsides, hbody⟩
    rcases List.forall_mem_append.1 hsides with ⟨hl, hr⟩
    rw [Stmt.rename, Stmt.active, Stmt.active, evalNumber_capitals hl, evalNumber_capitals hr,
      ih hbody]
    split
    · split <;> rfl
    · rfl
  | _ => rfl

end Expressions

/-! ## Statements -/

section Statements

variable {program : Program} {scope : Scope} {stmt : Stmt} {s s' t : State}

/-- In capitals lines are where they were. -/
theorem findLine?_capitals (program : Program) (target : Int16) :
    findLine? (program.rename .capitals) (Renaming.capitals.number target) =
      findLine? program target := by
  rw [findLine?, findLine?, Program.rename, List.findIdx?_map]
  rfl

/-- What a statement in capitals leaves behind, and what it leaves as it is: the states differ in
the store only, in which the names that the statement writes in other letters are as they were. -/
structure Capitalizes (stmt : Stmt) (s s' t : State) : Prop where
  elsewhere : s' = { t with store := s'.store }
  get?_eq : ∀ x, s'.get? x = if upper x ∈ stmt.targets then t.get? x else s.get? x
  eq_of_upper : (∀ x ∈ stmt.targets, upper x = x) → s' = t

/-- A statement that writes nothing leaves the same behind in capitals. -/
theorem Capitalizes.of_store_eq (hstore : s'.store = s.store) : Capitalizes stmt s s' s' where
  elsewhere := rfl
  get?_eq x := by
    split
    · rfl
    · exact congrArg (·.get? x) hstore
  eq_of_upper _ := rfl

/-- A statement that writes one name. -/
theorem Capitalizes.of_put {name : String} (htargets : stmt.targets = [name]) (v : Value)
    (rest : List (List UInt8)) :
    Capitalizes stmt s { s with store := s.store.put name v, input := rest }
      { s with store := s.store.put (upper name) v, input := rest } where
  elsewhere := rfl
  get?_eq x := by
    simp only [State.get?, Store.get?_put, htargets, List.mem_singleton]
    by_cases hname : upper x = name
    · simp [← hname]
    · rw [if_neg hname, if_neg hname]
  eq_of_upper hupper := by
    rw [hupper name (htargets ▸ List.mem_singleton_self name)]

/-- A statement that succeeds does so in capitals. -/
theorem Performs.exists_capitals (hcovers : s.store.Covers stmt.names)
    (h : Performs program scope s stmt s') :
    ∃ t, Performs (program.rename .capitals) scope s (stmt.rename .capitals) t ∧
      Capitalizes stmt s s' t := by
  cases h with
  | @declare type declared =>
    refine ⟨_, .declare, rfl, fun x => ?_, fun hupper => ?_⟩
    · simp only [State.get?, Store.get?_foldl_reset, Stmt.targets]
      by_cases hx : upper x ∈ declared
      · have hmap : upper x ∈ declared.map Renaming.capitals.name :=
          List.mem_map.2 ⟨upper x, hx, upper_upper x⟩
        rw [if_pos hx, if_pos hx, if_pos hmap]
      · rw [if_neg hx, if_neg hx]
    · have hmap : declared.map Renaming.capitals.name = declared :=
        (List.map_congr_left hupper).trans (List.map_id declared)
      rw [hmap]
  | @assign name value v heval =>
    have hvalue := (List.forall_mem_cons.1 hcovers).2
    exact ⟨_, .assign ((eval_capitals hvalue).trans heval), .of_put rfl v s.input⟩
  | @inputText name text rest htype hread =>
    exact ⟨_, .inputText ((Scope.typeOf?_upper scope name).trans htype) hread,
      .of_put rfl (.text text) rest⟩
  | @inputNumber name n rest htype hread =>
    have htype' : scope.typeOf? (upper name) ≠ some .string := by rwa [Scope.typeOf?_upper]
    exact ⟨_, .inputNumber htype' hread, .of_put rfl (.integer n) rest⟩
  | print heval hwrite =>
    exact ⟨_, .print ((evalItems_capitals hcovers).trans heval) hwrite, .of_store_eq rfl⟩
  | @skip lhs rhs op body l r hlhs hrhs hfalse =>
    rcases List.forall_mem_append.1 hcovers with ⟨hsides, -⟩
    rcases List.forall_mem_append.1 hsides with ⟨hl, hr⟩
    exact ⟨_, .skip ((evalNumber_capitals hl).trans hlhs) ((evalNumber_capitals hr).trans hrhs)
      hfalse, .of_store_eq rfl⟩
  | goto hfind =>
    exact ⟨_, .goto ((findLine?_capitals program _).trans hfind), .of_store_eq rfl⟩
  | goNowhere hfind =>
    exact ⟨_, .goNowhere ((findLine?_capitals program _).trans hfind), .of_store_eq rfl⟩
  | gosub hfind =>
    exact ⟨_, .gosub ((findLine?_capitals program _).trans hfind), .of_store_eq rfl⟩
  | callNowhere hfind =>
    exact ⟨_, .callNowhere ((findLine?_capitals program _).trans hfind), .of_store_eq rfl⟩
  | ret hreturns => exact ⟨_, .ret hreturns, .of_store_eq rfl⟩
  | stop => exact ⟨_, .stop, .of_store_eq rfl⟩

/-- A statement that fails does so in capitals. -/
theorem Fails.capitals (hcovers : s.store.Covers stmt.names) {e : RuntimeError}
    (h : Fails scope s stmt e s') : Fails scope s (stmt.rename .capitals) e s' := by
  cases h with
  | assign heval => exact .assign ((eval_capitals (List.forall_mem_cons.1 hcovers).2).trans heval)
  | @inputText name e rest htype hread =>
    exact .inputText ((Scope.typeOf?_upper scope name).trans htype) hread
  | @inputNumber name e rest htype hread =>
    have htype' : scope.typeOf? (upper name) ≠ some .string := by rwa [Scope.typeOf?_upper]
    exact .inputNumber htype' hread
  | items heval => exact .items ((evalItems_capitals hcovers).trans heval)
  | output heval hwrite => exact .output ((evalItems_capitals hcovers).trans heval) hwrite
  | condLeft hlhs =>
    rcases List.forall_mem_append.1 hcovers with ⟨hsides, -⟩
    exact .condLeft ((evalNumber_capitals (List.forall_mem_append.1 hsides).1).trans hlhs)
  | condRight hlhs hrhs =>
    rcases List.forall_mem_append.1 hcovers with ⟨hsides, -⟩
    rcases List.forall_mem_append.1 hsides with ⟨hl, hr⟩
    exact .condRight ((evalNumber_capitals hl).trans hlhs) ((evalNumber_capitals hr).trans hrhs)
  | ret hreturns => exact .ret hreturns

/-- Names keep holding values when a statement succeeds. -/
theorem Performs.covers (h : Performs program scope s stmt s') (hcovers : s.store.Covers names) :
    s'.store.Covers names := by
  cases h with
  | declare => exact hcovers.foldl_reset _ _
  | assign | inputText | inputNumber => exact hcovers.put _ _
  | _ => exact hcovers

end Statements

/-! ## Lines and runs -/

section Runs

variable {program : Program} {scope : Scope} {s s' : State} {event : Event}

/-- What conditions come down to has names that hold values. -/
theorem Store.Covers.active (h : store.Covers program.names) {line : Line}
    (hline : line ∈ program.lines) : store.Covers (line.stmt.active store).names :=
  fun x hx => h x (names_active_subset (Program.names_subset hline) store hx)

/-- What conditions come down to writes no more names. -/
theorem targets_active_subset {stmt : Stmt} (h : stmt.targets ⊆ names) (store : Store) :
    (stmt.active store).targets ⊆ names :=
  Stmt.active_of_body (P := fun stmt => stmt.targets ⊆ names) (fun hbody => hbody) h store

/-- The line in capitals is where the line is. -/
theorem getElem?_capitals {i : Nat} {line : Line} (h : program.lines[i]? = some line) :
    (program.rename .capitals).lines[i]? = some (line.rename .capitals) := by
  rw [Program.rename, List.getElem?_map, h]
  rfl

/-- A line does in capitals what it does as it is, except that names which it writes in other
letters are then written. -/
theorem Advance.exists_capitals (hcovers : s.store.Covers program.names)
    (h : Advance program scope s event s') :
    ∃ t, Advance (program.rename .capitals) scope s
        ⟨event.index, event.stmt.rename .capitals, event.error⟩ t ∧
      Capitalizes event.stmt s s' t := by
  rcases event with ⟨i, stmt, error⟩
  rcases h.performs_or_fails with ⟨line, hnext, hline, hstmt, houtcome⟩
  have hcapital := getElem?_capitals hline
  have hactive : (line.rename .capitals).stmt.active s.store = stmt.rename .capitals := by
    have hnames : s.store.Covers line.stmt.names :=
      fun x hx => hcovers x (Program.names_subset (List.mem_of_getElem? hline) hx)
    rw [show stmt = _ from hstmt]
    exact active_capitals hnames
  have henter : (s.enter i line).store.Covers stmt.names := by
    rw [show stmt = _ from hstmt]
    exact hcovers.active (List.mem_of_getElem? hline)
  rw [← hactive]
  rcases houtcome with ⟨rfl, hperforms⟩ | ⟨e, rfl, hfails⟩
  · rcases hperforms.exists_capitals henter with ⟨t, ht, hcapitalizes⟩
    refine ⟨t, .ok hnext hcapital (run_step_eq_ok_iff.2 ⟨_, hcapital, ?_⟩), ?_⟩
    · rw [hactive]
      exact ht
    · exact ⟨hcapitalizes.elsewhere, hcapitalizes.get?_eq, hcapitalizes.eq_of_upper⟩
  · refine ⟨s', .error hnext hcapital (run_step_eq_error_iff.2 (.inr ⟨_, hcapital, ?_⟩)), ?_⟩
    · rw [hactive]
      exact hfails.capitals henter
    · exact .of_store_eq hfails.store_eq

/-- Names keep holding values on a line. -/
theorem Advance.covers (h : Advance program scope s event s') (hcovers : s.store.Covers names) :
    s'.store.Covers names := by
  rcases h.performs_or_fails with ⟨line, -, -, -, ⟨-, hperforms⟩ | ⟨e, -, hfails⟩⟩
  · exact hperforms.covers hcovers
  · rw [hfails.store_eq]
    exact hcovers

/-- Names keep holding values on any number of lines. -/
theorem History.covers {trace : List Event} (h : History program scope s trace s')
    (hcovers : s.store.Covers names) : s'.store.Covers names :=
  h.invariant hcovers fun _ _ _ hstep hadvance => hadvance.covers hstep

/-- What conditions on a line come down to writes names of the program. -/
theorem Advance.targets_subset (h : Advance program scope s event s') :
    event.stmt.targets ⊆ program.targets := by
  rcases h.performs_or_fails with ⟨line, -, hline, hstmt, -⟩
  rw [hstmt]
  exact targets_active_subset (Program.targets_subset (List.mem_of_getElem? hline)) s.store

/-- A run of some lines, if they write names in capitals only. -/
theorem runFor_capitals (htargets : ∀ x ∈ program.targets, upper x = x) (n : Nat)
    (hcovers : s.store.Covers program.names) :
    (runFor (program.rename .capitals) scope n).run s = (runFor program scope n).run s := by
  induction n generalizing s with
  | zero => rfl
  | succ n ih =>
    cases hnext : s.next with
    | none => rw [run_runFor_succ, run_runFor_succ, hnext]
    | some i =>
      cases hline : program.lines[i]? with
      | none =>
        have hcapital : (program.rename .capitals).lines[i]? = none := by
          rw [Program.rename, List.getElem?_map, hline]
          rfl
        rw [run_runFor_succ, run_runFor_succ, hnext]
        simp only [run_step, hline, hcapital]
      | some line =>
        rcases exists_advance scope hnext hline with ⟨event, s', hadvance, -⟩
        rcases hadvance.exists_capitals hcovers with ⟨t, ht, hcapitalizes⟩
        obtain rfl := hcapitalizes.eq_of_upper fun x hx => htargets x (hadvance.targets_subset hx)
        cases herror : event.error with
        | none =>
          rw [hadvance.runFor_of_ok herror, ht.runFor_of_ok herror]
          exact ih (hadvance.covers hcovers)
        | some e => rw [hadvance.runFor_of_error herror, ht.runFor_of_error herror]

/-- Runs one after the other, if they write names in capitals only. -/
theorem runTimes_capitals (htargets : ∀ x ∈ program.targets, upper x = x) (n : Nat)
    (hcovers : s.store.Covers program.names) :
    runTimes (program.rename .capitals) scope n s = runTimes program scope n s := by
  induction n generalizing s with
  | zero => rfl
  | succ n ih =>
    have hrun : (run (program.rename .capitals) scope).run s = (run program scope).run s :=
      runFor_capitals htargets lineLimit hcovers
    rw [runTimes, runTimes, hrun]
    cases hfirst : (run program scope).run s with
    | ok ended m =>
      rcases history_of_runFor_eq_ok hfirst with ⟨trace, hhistory, -⟩
      simp only [ih (hhistory.covers hcovers)]
    | error e m =>
      rcases history_of_runFor_eq_error hfirst with ⟨trace, hhistory, -⟩
      simp only [ih (hhistory.covers hcovers)]

/-- At the start the names of an accepted program hold values. -/
theorem covers_start (hscope : program.scope = .ok scope) (input : List UInt8)
    (room : Option Nat) : (State.start scope input room).store.Covers program.names := by
  rcases Program.wellTyped_of_scope hscope with ⟨hglobal, htyped, -⟩
  intro x hx
  rcases List.mem_flatMap.1 hx with ⟨line, hline, hxline⟩
  rcases (htyped line hline).exists_typeOf? x hxline with ⟨type, htype⟩
  rcases exists_get?_of_typeOf? hglobal (Store.symbols_ofSymbols hglobal) htype with ⟨v, hv, -⟩
  exact ⟨v, hv⟩

end Runs

end LineBasic.Machine
