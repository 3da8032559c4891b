import Mathlib
import LineBasic.Proofs.Machine.History

/-!
# Statements that fail

A statement fails before it stores, jumps or remembers anything, so that a run can go on behind
its line as if the statement were not there.  What an input has read is gone, but by whole lines
only, and of the line of a print a part may have been written, but never all of it.

Main definitions:

- `ReadsLines`: lines are read off the front of an input, with all of their bytes.
- `LeavesBehind`: what a statement that fails leaves of the state that it was executed in.

Main results:

- `Fails.leavesBehind`: this holds of all rules for statements that fail.
- `failed_statement_leaves_state`: and of all failures of statements and of runs.
-/

namespace LineBasic.Machine

variable {program : Program} {scope : Scope}

/-! ## Lines that are read -/

/-- Lines are read off the front of an input, and no others are touched.  If the input is made of
bytes, these lines and the others together are all of them, the others are cut into lines as
before, and each line that is read ends with its line feed if anything is left behind it. -/
def ReadsLines (input rest : List (List UInt8)) : Prop :=
  ∃ passed, input = passed ++ rest ∧
    ∀ bytes, inputLines bytes = input →
      bytes = passed.flatten ++ rest.flatten ∧ inputLines rest.flatten = rest ∧
        (rest = [] ∨ ∀ line ∈ passed, line.getLast? = some lineFeed)

/-- What is left at the end of an input is left by reading lines. -/
theorem readsLines_of_suffix {input rest : List (List UInt8)} (h : rest <:+ input) :
    ReadsLines input rest := by
  obtain ⟨passed, rfl⟩ := h
  refine ⟨passed, rfl, fun bytes hbytes => ⟨?_, inputLines_flatten_of_append hbytes⟩⟩
  rw [← List.flatten_append, ← hbytes, flatten_inputLines]

/-! ## Failures -/

/-- What a statement that fails leaves of the state that it was executed in. -/
structure LeavesBehind (s : State) (stmt : Stmt) (e : RuntimeError) (s' : State) : Prop where
  store_eq : s'.store = s.store
  returns_eq : s'.returns = s.returns
  next_eq : s'.next = s.next
  line_eq : s'.line = s.line
  /-- Only an input reads anything, and it reads whole lines. -/
  input : s'.input = s.input ∨ (∃ name, stmt = .input name) ∧ ReadsLines s.input s'.input
  /-- Only a print that runs out of room writes anything, and it writes a part of its line. -/
  output : s'.output = s.output ∨ e = .stream .full ∧ ∃ items text printed missing,
    stmt = .print items ∧ evalItems s.store items = .ok text ∧
      encode (text ++ "\n") = printed ++ missing ∧ missing ≠ [] ∧
      s'.output.written.toList = s.output.written.toList ++ printed

/-- Every rule for a statement that fails leaves the state behind in this way. -/
theorem Fails.leavesBehind {stmt : Stmt} {e : RuntimeError} {s s' : State}
    (h : Fails scope s stmt e s') : LeavesBehind s stmt e s' := by
  have hline : s'.line = s.line := by cases h <;> rfl
  refine ⟨h.store_eq, h.returns_eq, h.next_eq, hline, ?_, ?_⟩
  · cases h with
    | inputText htype hread =>
      exact .inr ⟨⟨_, rfl⟩, readsLines_of_suffix (suffix_of_readText hread)⟩
    | inputNumber htype hread =>
      exact .inr ⟨⟨_, rfl⟩, readsLines_of_suffix (suffix_of_readNumber hread)⟩
    | _ => exact .inl rfl
  · cases h with
    | output heval hwrite =>
      obtain ⟨printed, missing, hsplit, hmissing, hwritten, -⟩ := Output.exists_cut_of_write hwrite
      exact .inr ⟨rfl, _, _, printed, missing, rfl, heval, hsplit, hmissing, hwritten⟩
    | _ => exact .inl rfl

/-- A run goes on with the line that it is at. -/
theorem run_runFor_of_next {s : State} {i : Nat} (h : s.next = some i) (n : Nat) :
    (runFor program scope (n + 1)).run s =
      (step program scope i >>= fun _ => runFor program scope n).run s := by
  simp only [run_runFor_succ, h, EStateM.run_bind]
  cases (step program scope i).run s <;> rfl

variable (program scope) in
/-- A statement that fails, under any number of conditions, leaves variables, returns and the
place in the program alone; it takes nothing from the input unless it is an input, which reads
whole lines, and writes nothing unless it is a print for which there is no room, which writes less
than its line.  A run that fails has come to a line without an error before and fails with its
statement, or it has left the program; in the first case it stands behind that line, and that is
where the next run goes on. -/
theorem failed_statement_leaves_state :
    (∀ {stmt : Stmt} {s s' : State} {e : RuntimeError},
      (exec program scope stmt).run s = .error e s' →
        LeavesBehind s (stmt.active s.store) e s') ∧
    ∀ {n : Nat} {s s' : State} {e : RuntimeError},
      (runFor program scope n).run s = .error e s' →
        (∃ i, s'.next = some i ∧ program.lines[i]? = none ∧ e = .pcOutOfRange s'.line) ∨
        ∃ trace m i line, History program scope s trace m ∧
          (∀ event ∈ trace, event.error = none) ∧ m.next = some i ∧
          program.lines[i]? = some line ∧
          LeavesBehind (m.enter i line) (line.stmt.active m.store) e s' ∧
          s'.next = some (i + 1) ∧
          ∀ k, (runFor program scope (k + 1)).run s' =
            (step program scope (i + 1) >>= fun _ => runFor program scope k).run s' := by
  refine ⟨fun hrun => (run_exec_eq_error_iff.1 hrun).leavesBehind, fun hrun => ?_⟩
  obtain ⟨trace, hhistory, ⟨earlier, last, rfl, herror, hclean⟩ | ⟨-, he, i, hnext, hnone⟩⟩ :=
    history_of_runFor_eq_error hrun
  · obtain ⟨m, hearlier, hlast⟩ := hhistory.exists_of_append
    obtain ⟨line, hnext, hline, hstmt, ⟨hok, -⟩ | ⟨e', he', hfails⟩⟩ :=
      hlast.advance_of_singleton.performs_or_fails
    · rw [herror] at hok
      cases hok
    · rw [herror] at he'
      cases he'
      rw [hstmt] at hfails
      have hbehind := hfails.next_eq.trans (State.next_enter m last.index line)
      exact .inr ⟨earlier, m, last.index, line, hearlier, hclean, hnext, hline,
        hfails.leavesBehind, hbehind, run_runFor_of_next hbehind⟩
  · exact .inl ⟨i, hnext, hnone, he⟩

/-- A number is asked for under two conditions where no line has one, and all lines are read; a
text is printed where there is room for all of it but the end of its line. -/
theorem failures_leave_state :
    let asking : Stmt := .cond (.number 1) .less (.number 2)
      (.cond (.name "N") .equal (.number 0) (.input "N"))
    let program : Program := ⟨[⟨10, .print [.text "AB"]⟩, ⟨20, asking⟩]⟩
    let scope : Scope := ⟨⟨"GLOBAL", [⟨"N", .integer⟩]⟩, []⟩
    let s : State := .start scope [120, 10, 121] (some 2)
    (∃ s', (exec program scope asking).run s = .error (.onLine 0 .endOfInput) s' ∧
      LeavesBehind s (.input "N") (.onLine 0 .endOfInput) s' ∧ s'.input = []) ∧
    ∃ (s' m : State) (i : Nat) (line : Line),
      (runFor program scope 5).run s = .error (.stream .full) s' ∧
      s'.output.written.toList = encode "AB" ∧ program.lines[i]? = some line ∧
      LeavesBehind (m.enter i line) (line.stmt.active m.store) (.stream .full) s' ∧
      s'.next = some (i + 1) := by
  intro asking program scope s
  have hask : (exec program scope asking).run s =
      .error (.onLine 0 .endOfInput) { s with input := [] } := by cbv
  have hactive : asking.active s.store = .input "N" := by cbv
  have hprint : (runFor program scope 5).run s = .error (.stream .full)
      { s with line := some 10, next := some 1, output := ⟨#[65, 66], some 0⟩ } := by cbv
  refine ⟨⟨_, hask, hactive ▸ (failed_statement_leaves_state program scope).1 hask, rfl⟩, ?_⟩
  obtain ⟨i, -, -, he⟩ | ⟨-, m, i, line, -, -, -, hline, hleaves, hnext, -⟩ :=
    (failed_statement_leaves_state program scope).2 hprint
  · cases he
  · exact ⟨_, m, i, line, hprint, by decide, hline, hleaves, hnext⟩

end LineBasic.Machine
