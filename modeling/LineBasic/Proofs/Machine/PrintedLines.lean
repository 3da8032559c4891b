import Mathlib
import LineBasic.Proofs.Check.Checked
import LineBasic.Proofs.Machine.History

/-!
# Printed lines

Every statement that prints writes one line, and no value that it prints has a line feed in it:
quoted texts stand on one line of the program, texts that are read lose the end of their line, and
numbers have digits and a sign only.  So the lines of an output are the statements that printed
them, in their order, over any number of runs.

Main definitions:

- `Printout`: a history with the lines that are printed in it.
- `State.SingleLines`: no value has a line feed, and the input is cut into lines.
- `RunEnds` and `outcome`: how a run ends, with an error or without.

Main results:

- `isSingleLine_of_mapM`: what is printed at once is on one line.
- `Advance.singleLines`: this holds of all values behind a line if it does in front of it.
- `History.exists_printout`: every history has lines that are printed in it.
- `exists_printout_of_run`: what a run prints, and how it ends.
- `one_line_per_print`: the output of the runs of an accepted text.
-/

namespace LineBasic

open Machine

/-- What conditions come down to can be written if the whole statement can. -/
theorem Stmt.IsWritable.active {s : Stmt} (h : s.IsWritable) (store : Store) :
    (s.active store).IsWritable :=
  Stmt.active_of_body (P := Stmt.IsWritable) (fun h => h.2.2) h store

namespace Machine

variable {program : Program} {scope : Scope}

/-! ## Values on one line -/

/-- All values of a store are printed on one line. -/
def Store.IsSingleLine (store : Store) : Prop :=
  ∀ entry ∈ store, Machine.IsSingleLine entry.2.render

namespace Store.IsSingleLine

variable {store : Store}

/-- A value that is printed on one line keeps this of all values. -/
theorem put (h : store.IsSingleLine) {v : Value} (hv : Machine.IsSingleLine v.render)
    (name : String) : (store.put name v).IsSingleLine := by
  induction store with
  | nil => exact List.forall_mem_singleton.2 hv
  | cons entry rest ih =>
    rcases entry with ⟨x, w⟩
    rcases List.forall_mem_cons.1 h with ⟨hfirst, hrest⟩
    rw [Store.put]
    split
    · exact List.forall_mem_cons.2 ⟨hv, hrest⟩
    · exact List.forall_mem_cons.2 ⟨hfirst, ih hrest⟩

/-- Initial values are printed on one line. -/
theorem reset (h : store.IsSingleLine) (name : String) (type : SymbolType) :
    (store.reset name type).IsSingleLine := by
  cases type with
  | void => exact h
  | integer => exact h.put (v := .integer 0) (isSingleLine_toString 0) name
  | string => exact h.put (v := .text "") (by simp [Machine.IsSingleLine, Value.render]) name

/-- So are those of any number of variables. -/
theorem foldl_reset {α : Type} (h : store.IsSingleLine) (name : α → String)
    (type : α → SymbolType) (as : List α) :
    (as.foldl (fun store a => store.reset (name a) (type a)) store).IsSingleLine := by
  induction as generalizing store with
  | nil => exact h
  | cons a as ih => exact ih (h.reset (name a) (type a))

/-- What a variable holds is printed on one line. -/
theorem get? (h : store.IsSingleLine) {x : String} {v : Value} (hv : store.get? x = some v) :
    Machine.IsSingleLine v.render := by
  obtain ⟨before, after, hstore, -⟩ := List.lookup_eq_some_iff.1 hv
  exact h _ (hstore ▸ List.mem_append_right _ List.mem_cons_self)

/-- An item has a value that is printed on one line. -/
theorem eval (h : store.IsSingleLine) {e : Expr} (he : e.IsWritableItem) {v : Value}
    (hv : Machine.eval store e = .ok v) : Machine.IsSingleLine v.render := by
  cases e with
  | number n =>
    cases hv
    exact isSingleLine_toString n
  | text content =>
    cases hv
    exact fun hmem => (he _ hmem).2.2 rfl
  | name x =>
    rw [Machine.eval] at hv
    split at hv
    · rename_i w hlookup
      cases hv
      exact h.get? hlookup
    · cases hv
  | binary op lhs rhs =>
    rw [Machine.eval] at hv
    rcases except_bind_eq_ok_iff.1 hv with ⟨_, -, hv⟩
    rcases except_bind_eq_ok_iff.1 hv with ⟨_, -, hv⟩
    rcases except_bind_eq_ok_iff.1 hv with ⟨_, -, hv⟩
    rcases except_bind_eq_ok_iff.1 hv with ⟨_, -, hv⟩
    rcases except_bind_eq_ok_iff.1 hv with ⟨n, -, hpure⟩
    cases hpure
    exact isSingleLine_toString n

end Store.IsSingleLine

/-! ## Items -/

/-- The text of items is made of the texts of their values, one behind the other. -/
theorem exists_values_of_evalItems {store : Store} {items : List Expr} {text : String}
    (h : evalItems store items = .ok text) :
    ∃ values, items.mapM (eval store) = .ok values ∧
      text = String.join (values.map Value.render) := by
  induction items generalizing text with
  | nil =>
    cases h
    exact ⟨[], rfl, rfl⟩
  | cons e rest ih =>
    rcases except_bind_eq_ok_iff.1 h with ⟨v, hv, h⟩
    rcases except_bind_eq_ok_iff.1 h with ⟨later, hlater, hpure⟩
    cases hpure
    obtain ⟨values, hvalues, rfl⟩ := ih hlater
    refine ⟨v :: values, ?_, ?_⟩
    · rw [List.mapM_cons, hv, hvalues]
      rfl
    · rw [List.map_cons, String.join_cons]

/-- What is printed at once is on one line. -/
theorem isSingleLine_of_mapM {store : Store} (hstore : store.IsSingleLine) {items : List Expr}
    (hitems : ∀ e ∈ items, e.IsWritableItem) {values : List Value}
    (h : items.mapM (eval store) = .ok values) :
    IsSingleLine (String.join (values.map Value.render)) := by
  induction items generalizing values with
  | nil =>
    cases h
    simp [IsSingleLine]
  | cons e rest ih =>
    rcases List.forall_mem_cons.1 hitems with ⟨he, hrest⟩
    rw [List.mapM_cons] at h
    rcases except_bind_eq_ok_iff.1 h with ⟨v, hv, h⟩
    rcases except_bind_eq_ok_iff.1 h with ⟨later, hlater, hpure⟩
    cases hpure
    have hlines := ih hrest hlater
    rw [List.map_cons, String.join_cons, IsSingleLine, String.toList_append, List.mem_append]
    exact fun hmem => hmem.elim (hstore.eval he hv) hlines

/-! ## States -/

/-- No value has a line feed, the input is cut into lines, and the output takes everything. -/
structure State.SingleLines (s : State) : Prop where
  store : s.store.IsSingleLine
  input : ∀ line ∈ s.input, IsInputLine line
  unlimited : s.output.room = none

/-- This holds before the first line. -/
theorem State.singleLines_start (scope : Scope) (input : List UInt8) :
    (State.start scope input none).SingleLines where
  store := Store.IsSingleLine.foldl_reset (show Store.IsSingleLine [] by simp [Store.IsSingleLine])
    Symbol.name Symbol.type scope.symbols
  input := isInputLine_of_mem_inputLines
  unlimited := rfl

/-- A statement that succeeds gives variables values without line feeds only. -/
theorem Performs.isSingleLine {stmt : Stmt} (hwritable : stmt.IsWritable) {s s' : State}
    (h : Performs program scope s stmt s') (hstore : s.store.IsSingleLine)
    (hinput : ∀ line ∈ s.input, IsInputLine line) :
    s'.store.IsSingleLine ∧ ∀ line ∈ s'.input, IsInputLine line := by
  cases h with
  | declare => exact ⟨hstore.foldl_reset id _ _, hinput⟩
  | assign heval => exact ⟨hstore.put (hstore.eval hwritable.2 heval) _, hinput⟩
  | inputText htype hread =>
    exact ⟨hstore.put (v := .text _) (isSingleLine_of_readText hinput hread) _,
      fun line hline => hinput line (subset_of_readText hread hline)⟩
  | inputNumber htype hread =>
    exact ⟨hstore.put (v := .integer _) (isSingleLine_toString _) _,
      fun line hline => hinput line (subset_of_readNumber hread hline)⟩
  | _ => exact ⟨hstore, hinput⟩

/-- A statement that fails passes over lines of input at most. -/
theorem Fails.input_subset {stmt : Stmt} {e : RuntimeError} {s s' : State}
    (h : Fails scope s stmt e s') : s'.input ⊆ s.input := by
  cases h with
  | inputText htype hread => exact subset_of_readText hread
  | inputNumber htype hread => exact subset_of_readNumber hread
  | _ => exact List.Subset.refl _

/-- A line of a program that can be written leaves all values without line feeds. -/
theorem Advance.singleLines (hwritable : ∀ line ∈ program.lines, line.stmt.IsWritable)
    {s s' : State} {event : Event} (h : Advance program scope s event s') (hs : s.SingleLines) :
    s'.SingleLines := by
  have hroom := h.room_eq_none hs.unlimited
  obtain ⟨line, -, hline, hstmt, ⟨-, hperforms⟩ | ⟨e, -, hfails⟩⟩ := h.performs_or_fails
  · have hactive := (hwritable line (List.mem_of_getElem? hline)).active s.store
    rw [← hstmt] at hactive
    rcases hperforms.isSingleLine hactive hs.store hs.input with ⟨hstore, hinput⟩
    exact ⟨hstore, hinput, hroom⟩
  · have hstore : s'.store = s.store := hfails.store_eq
    exact ⟨hstore ▸ hs.store, fun line hline => hs.input line (hfails.input_subset hline), hroom⟩

/-- A statement that prints without an error writes the values of its items as one line. -/
theorem Advance.exists_values_of_print {s s' : State} {event : Event}
    (h : Advance program scope s event s') {items : List Expr} (hstmt : event.stmt = .print items)
    (hok : event.error = none) :
    ∃ values, items.mapM (eval s.store) = .ok values ∧
      s'.output.written.toList =
        s.output.written.toList ++ encode (String.join (values.map Value.render) ++ "\n") := by
  obtain ⟨line, -, -, -, ⟨-, hperforms⟩ | ⟨e, herror, -⟩⟩ := h.performs_or_fails
  · rw [hstmt] at hperforms
    cases hperforms with
    | print heval hwrite =>
      obtain ⟨values, hvalues, rfl⟩ := exists_values_of_evalItems heval
      refine ⟨values, hvalues, ?_⟩
      rw [Output.written_of_write hwrite, State.output_enter]
  · rw [hok] at herror
    cases herror

/-- Only a statement that prints without an error writes anything. -/
theorem Advance.written_eq {s s' : State} {event : Event} (h : Advance program scope s event s')
    (hroom : s.output.room = none)
    (hother : ∀ items, event.stmt = .print items → event.error ≠ none) :
    s'.output.written = s.output.written := by
  rcases h.output_cases with heq | ⟨items, text, complete, hstmt, -, hwrite, hok⟩
  · rw [heq]
  · have hcomplete := (Output.of_room_eq_none hroom hwrite).1
    exact absurd (hok.2 hcomplete) (hother items hstmt)

/-! ## Printed lines -/

/-- A history with the lines that are printed in it.  A statement that prints and does not fail
prints one line: the values of its items in the store of the state that it is executed in, one
behind the other.  Nothing else prints anything. -/
inductive Printout (program : Program) (scope : Scope) (s₀ : State) :
    List Event → List String → State → Prop
  | start : Printout program scope s₀ [] [] s₀
  | print {trace : List Event} {lines : List String} {event : Event} {s s' : State}
      {items : List Expr} {values : List Value} (hearlier : Printout program scope s₀ trace lines s)
      (hlast : Advance program scope s event s') (hstmt : event.stmt = .print items)
      (hok : event.error = none) (hvalues : items.mapM (eval s.store) = .ok values) :
    Printout program scope s₀ (trace ++ [event])
      (lines ++ [String.join (values.map Value.render)]) s'
  | other {trace : List Event} {lines : List String} {event : Event} {s s' : State}
      (hearlier : Printout program scope s₀ trace lines s)
      (hlast : Advance program scope s event s')
      (hother : ∀ items, event.stmt = .print items → event.error ≠ none) :
    Printout program scope s₀ (trace ++ [event]) lines s'

/-- Every history has lines that are printed in it. -/
theorem History.exists_printout {s₀ s : State} {trace : List Event}
    (h : History program scope s₀ trace s) : ∃ lines, Printout program scope s₀ trace lines s := by
  induction h with
  | refl => exact ⟨[], .start⟩
  | @snoc trace event s s' _ hlast ih =>
    rcases ih with ⟨lines, hearlier⟩
    by_cases hprints : ∃ items, event.stmt = .print items ∧ event.error = none
    · rcases hprints with ⟨items, hstmt, hok⟩
      rcases hlast.exists_values_of_print hstmt hok with ⟨values, hvalues, -⟩
      exact ⟨_, .print hearlier hlast hstmt hok hvalues⟩
    · exact ⟨lines, .other hearlier hlast fun items hstmt hok => hprints ⟨items, hstmt, hok⟩⟩

namespace Printout

variable {s₀ s : State} {trace : List Event} {lines : List String}

/-- The lines are those of a history. -/
theorem history (h : Printout program scope s₀ trace lines s) :
    History program scope s₀ trace s := by
  induction h with
  | start => exact .refl
  | print _ hlast _ _ _ ih => exact ih.snoc hlast
  | other _ hlast _ ih => exact ih.snoc hlast

/-- No line has a line feed in it. -/
theorem isSingleLine (h : Printout program scope s₀ trace lines s)
    (hwritable : ∀ line ∈ program.lines, line.stmt.IsWritable) (hs₀ : s₀.SingleLines) :
    s.SingleLines ∧ ∀ line ∈ lines, IsSingleLine line := by
  induction h with
  | start => exact ⟨hs₀, by simp⟩
  | @print trace lines event s s' items values _ hlast hstmt hok hvalues ih =>
    rcases ih with ⟨hs, hlines⟩
    refine ⟨hlast.singleLines hwritable hs, List.forall_mem_append.2 ⟨hlines, ?_⟩⟩
    obtain ⟨line, -, hline, hactive, -⟩ := hlast.performs_or_fails
    have hitems := (hwritable line (List.mem_of_getElem? hline)).active s.store
    rw [← hactive, hstmt] at hitems
    exact List.forall_mem_singleton.2 (isSingleLine_of_mapM hs.store hitems.2 hvalues)
  | other _ hlast _ ih => exact ⟨hlast.singleLines hwritable ih.1, ih.2⟩

/-- The lines are what has been written. -/
theorem written (h : Printout program scope s₀ trace lines s) (hroom : s₀.output.room = none) :
    s.output.written.toList =
      s₀.output.written.toList ++ lines.flatMap fun line => encode (line ++ "\n") := by
  induction h with
  | start => simp
  | @print trace lines event s s' items values hearlier hlast hstmt hok hvalues ih =>
    rcases hlast.exists_values_of_print hstmt hok with ⟨values', hvalues', hwritten⟩
    obtain rfl : values' = values := Except.ok.inj (hvalues'.symm.trans hvalues)
    rw [hwritten, ih, List.flatMap_append, List.flatMap_singleton, List.append_assoc]
  | other hearlier hlast hother ih =>
    have hunlimited := hearlier.history.invariant (P := fun s => s.output.room = none) hroom
      fun _ _ _ hs hadvance => hadvance.room_eq_none hs
    rw [hlast.written_eq hunlimited hother, ih]

end Printout

/-! ## Runs -/

section Runs

/-- A run ends without an error when the program does, or at the limit for the number of lines; with
one, it ends with the error of its last line, or because there is no line to go on with. -/
inductive RunEnds (program : Program) (trace : List Event) (s : State) :
    Option RuntimeError → Prop
  | ended (hclean : ∀ event ∈ trace, event.error = none) (hnext : s.next = none) :
    RunEnds program trace s none
  | limit (hclean : ∀ event ∈ trace, event.error = none) (hlength : trace.length = lineLimit) :
    RunEnds program trace s none
  | failed {earlier : List Event} {last : Event} {e : RuntimeError}
      (htrace : trace = earlier ++ [last]) (hclean : ∀ event ∈ earlier, event.error = none)
      (hlast : last.error = some e) :
    RunEnds program trace s (some e)
  | noLine {i : Nat} (hclean : ∀ event ∈ trace, event.error = none) (hnext : s.next = some i)
      (hline : program.lines[i]? = none) :
    RunEnds program trace s (some (.pcOutOfRange s.line))

variable (program scope)

/-- The error of a run, if there is one, and the state that it leaves. -/
def outcome (start : State) : Option RuntimeError × State :=
  match (run program scope).run start with
  | .ok _ s => (none, s)
  | .error e s => (some e, s)

/-- A run prints the lines of its statements that print, up to where it ends. -/
theorem exists_printout_of_run (start : State) (hroom : start.output.room = none)
    (hwritten : start.output.written = #[]) :
    ∃ trace lines, Printout program scope start trace lines (outcome program scope start).2 ∧
      RunEnds program trace (outcome program scope start).2 (outcome program scope start).1 ∧
      (outcome program scope start).2.output.written.toList =
        lines.flatMap fun line => encode (line ++ "\n") := by
  have hlines {trace : List Event} {s : State} (h : History program scope start trace s) :
      ∃ lines, Printout program scope start trace lines s ∧
        s.output.written.toList = lines.flatMap fun line => encode (line ++ "\n") := by
    obtain ⟨lines, hprintout⟩ := h.exists_printout
    refine ⟨lines, hprintout, ?_⟩
    rw [hprintout.written hroom, hwritten]
    rfl
  rw [outcome]
  cases hrun : (run program scope).run start with
  | ok ended s =>
    obtain ⟨trace, hhistory, hclean, -, hend⟩ := exists_history_of_runFor_eq_ok hrun
    obtain ⟨lines, hprintout, heq⟩ := hlines hhistory
    exact ⟨trace, lines, hprintout, hend.elim (.ended hclean) (.limit hclean), heq⟩
  | error e s =>
    obtain ⟨trace, hhistory, hend⟩ := history_of_runFor_eq_error hrun
    obtain ⟨lines, hprintout, heq⟩ := hlines hhistory
    refine ⟨trace, lines, hprintout, ?_, heq⟩
    rcases hend with ⟨earlier, last, htrace, hlast, hclean⟩ | ⟨hclean, rfl, i, hnext, hline⟩
    · exact .failed htrace hclean hlast
    · exact .noLine hclean hnext hline

end Runs

end Machine

/-- One line for each statement that prints.  In every state of every run of an accepted text, no
variable holds a text with a line feed, and what has been written is a sequence of lines with a
line feed behind each: one line for each statement that has printed without an error, in their
order, made of the values that its items had in the state that it was executed in.  Neither the
texts of these lines nor their bytes have line feeds in them.  This holds by whatever history the
state is reached. -/
theorem one_line_per_print {source : String} {checked : Checked}
    (h : check source = .ok checked) (input : List UInt8) (k n : Nat) {start before s : State}
    (hstart : start = .start checked.scope input none)
    (hbefore : before = (runTimes checked.program checked.scope k start).2)
    (hs : (∃ ended, (runFor checked.program checked.scope n).run before = .ok ended s) ∨
      ∃ e, (runFor checked.program checked.scope n).run before = .error e s) :
    (∀ x content, s.get? x = some (.text content) → '\n' ∉ content.toList) ∧
      (∃ trace, History checked.program checked.scope start trace s) ∧
      ∀ trace, History checked.program checked.scope start trace s →
        ∃ lines, Printout checked.program checked.scope start trace lines s ∧
          s.output.written.toList = lines.flatMap (fun line => encode (line ++ "\n")) ∧
          ∀ line ∈ lines, '\n' ∉ line.toList ∧ lineFeed ∉ encode line := by
  subst hstart hbefore
  have hwritable : ∀ line ∈ checked.program.lines, line.stmt.IsWritable := fun line hline =>
    (Program.isWritable_of_parse (Checked.parse_of_check h) line hline).2
  obtain ⟨first, hfirst⟩ := history_of_runTimes checked.program checked.scope k
    (.start checked.scope input none)
  have hhistory : ∃ trace,
      History checked.program checked.scope (.start checked.scope input none) trace s := by
    rcases hs with ⟨ended, hrun⟩ | ⟨e, hrun⟩
    · rcases history_of_runFor_eq_ok hrun with ⟨later, hlater, -⟩
      exact ⟨_, hfirst.trans hlater⟩
    · rcases history_of_runFor_eq_error hrun with ⟨later, hlater, -⟩
      exact ⟨_, hfirst.trans hlater⟩
  have hstart := State.singleLines_start checked.scope input
  refine ⟨fun x content hcontent => ?_, hhistory, fun trace htrace => ?_⟩
  · rcases hhistory with ⟨trace, htrace⟩
    rcases htrace.exists_printout with ⟨lines, hprintout⟩
    exact (hprintout.isSingleLine hwritable hstart).1.store.get? hcontent
  · rcases htrace.exists_printout with ⟨lines, hprintout⟩
    have hlines := (hprintout.isSingleLine hwritable hstart).2
    refine ⟨lines, hprintout, ?_, fun line hline => ?_⟩
    · rw [hprintout.written rfl]
      rfl
    · exact ⟨hlines line hline, mt lineFeed_mem_encode_iff.1 (hlines line hline)⟩

/-- A line that is read with a carriage return and printed with a number behind it. -/
theorem read_line_is_printed :
    ∃ checked s trace lines,
      check "10 STRING S\r\n20 INPUT S\r\n30 PRINT S, 7 - 9" = .ok checked ∧
      (runFor checked.program checked.scope 3).run
        (.start checked.scope [97, 35, 13, 10, 98] none) = .ok false s ∧
      s.get? "S" = some (.text "a#") ∧
      Printout checked.program checked.scope (.start checked.scope [97, 35, 13, 10, 98] none)
        trace lines s ∧
      lines.flatMap (fun line => encode (line ++ "\n")) = encode "a#-2\n" := by
  let checked : Checked :=
    ⟨⟨[⟨10, .declare .string ["S"]⟩, ⟨20, .input "S"⟩,
      ⟨30, .print [.name "S", .binary .sub (.number 7) (.number 9)]⟩]⟩,
      ⟨⟨"GLOBAL", [⟨"S", .string⟩]⟩, []⟩⟩
  have hcheck : check "10 STRING S\r\n20 INPUT S\r\n30 PRINT S, 7 - 9" = .ok checked := by cbv
  have hrun : (runFor checked.program checked.scope 3).run
      (.start checked.scope [97, 35, 13, 10, 98] none) = .ok false
        { store := [("S", .text "a#")], next := some 3, line := some 30, input := [[98]],
          output := ⟨#[97, 35, 45, 50, 10], none⟩ } := by cbv
  obtain ⟨-, ⟨trace, htrace⟩, hall⟩ :=
    one_line_per_print hcheck [97, 35, 13, 10, 98] 0 3 rfl rfl (.inl ⟨_, hrun⟩)
  obtain ⟨lines, hprintout, hwritten, -⟩ := hall trace htrace
  refine ⟨checked, _, trace, lines, hcheck, hrun, rfl, hprintout, ?_⟩
  rw [← hwritten]
  decide

end LineBasic
