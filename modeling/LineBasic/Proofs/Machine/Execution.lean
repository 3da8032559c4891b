import LineBasic.Machine.Step
import LineBasic.Proofs.Check.Numbering

/-!
# What a machine does with a line

A line either performs the statement that its conditions come down to, or fails with it.  The
rules below say all that can happen in either case, so that a property of runs is shown by going
through them and never by looking into the machine again.

Main definitions:

- `Stmt.active`: the statement that conditions come down to.
- `Performs` and `Fails`: the rules for a statement that succeeds and for one that fails.

Main results:

- `exists_performs_or_fails`: there is a rule for every statement in every state.
- `run_exec_eq_ok_iff` and `run_exec_eq_error_iff`: the rules are those of the machine.
-/

namespace LineBasic

open Machine

/-- The statement that is left of a statement when the conditions that hold are taken away; it
is conditional itself if its condition fails or has no answer. -/
def Stmt.active (store : Store) : Stmt → Stmt
  | cond lhs op rhs body =>
    match evalNumber store lhs, evalNumber store rhs with
    | .ok l, .ok r => if op.holds (compare l r) then body.active store else .cond lhs op rhs body
    | _, _ => .cond lhs op rhs body
  | s => s

/-- A condition that holds comes down to what its body comes down to, and any other one to
itself. -/
theorem Stmt.active_cond_cases (store : Store) (lhs : Expr) (op : Relop) (rhs : Expr)
    (body : Stmt) :
    (∃ l r, evalNumber store lhs = .ok l ∧ evalNumber store rhs = .ok r ∧
        op.holds (compare l r) = true ∧
        (Stmt.cond lhs op rhs body).active store = body.active store) ∨
      ((∀ l r, evalNumber store lhs = .ok l → evalNumber store rhs = .ok r →
          op.holds (compare l r) = false) ∧
        (Stmt.cond lhs op rhs body).active store = .cond lhs op rhs body) := by
  rw [active]
  split
  · rename_i l r hl hr
    cases hholds : op.holds (compare l r) with
    | true => exact .inl ⟨l, r, hl, hr, hholds, if_pos rfl⟩
    | false =>
      refine .inr ⟨fun l' r' hl' hr' => ?_, if_neg Bool.false_ne_true⟩
      rw [hl] at hl'
      rw [hr] at hr'
      cases hl'
      cases hr'
      exact hholds
  · rename_i hnumbers
    exact .inr ⟨fun l r hl hr => absurd hr (hnumbers l r hl), rfl⟩

/-- What holds of a statement holds of what its conditions come down to, if it passes from
conditional statements to those inside them. -/
theorem Stmt.active_of_body {P : Stmt → Prop}
    (hbody : ∀ {lhs op rhs body}, P (.cond lhs op rhs body) → P body) {s : Stmt} (h : P s)
    (store : Store) : P (s.active store) := by
  induction s with
  | cond lhs op rhs body ih =>
    rcases active_cond_cases store lhs op rhs body with ⟨l, r, -, -, -, hactive⟩ | ⟨-, hsame⟩
    · rw [hactive]
      exact ih (hbody h)
    · rwa [hsame]
  | _ => exact h

/-- Conditions come down to the statement behind all of them, or to one of themselves. -/
theorem Stmt.active_eq_core_or (store : Store) (s : Stmt) :
    s.active store = s.core ∨ ∃ lhs op rhs body, s.active store = .cond lhs op rhs body := by
  induction s with
  | cond lhs op rhs body ih =>
    rcases active_cond_cases store lhs op rhs body with ⟨l, r, -, -, -, hbody⟩ | ⟨-, hsame⟩
    · rw [hbody]
      exact ih
    · exact .inr ⟨_, _, _, _, hsame⟩
  | _ => exact .inl rfl

namespace Machine

variable {program : Program} {scope : Scope}

/-! ## The rules -/

/-- What a statement does in a state if it succeeds. -/
inductive Performs (program : Program) (scope : Scope) (s : State) : Stmt → State → Prop
  | declare {type : DeclaredType} {names : List String} :
    Performs program scope s (.declare type names)
      { s with store := names.foldl (fun store x => store.reset x type.symbolType) s.store }
  | assign {name : String} {value : Expr} {v : Value} (heval : eval s.store value = .ok v) :
    Performs program scope s (.assign name value) { s with store := s.store.put name v }
  | inputText {name : String} {text : String} {rest : List (List UInt8)}
      (htype : scope.typeOf? name = some .string) (hread : readText s.input = (.ok text, rest)) :
    Performs program scope s (.input name)
      { s with store := s.store.put name (.text text), input := rest }
  | inputNumber {name : String} {n : Int16} {rest : List (List UInt8)}
      (htype : scope.typeOf? name ≠ some .string) (hread : readNumber s.input = (.ok n, rest)) :
    Performs program scope s (.input name)
      { s with store := s.store.put name (.integer n), input := rest }
  | print {items : List Expr} {text : String} {output : Output}
      (heval : evalItems s.store items = .ok text)
      (hwrite : s.output.write (text ++ "\n") = (true, output)) :
    Performs program scope s (.print items) { s with output }
  | skip {lhs rhs : Expr} {op : Relop} {body : Stmt} {l r : Int16}
      (hlhs : evalNumber s.store lhs = .ok l) (hrhs : evalNumber s.store rhs = .ok r)
      (hfalse : op.holds (compare l r) = false) :
    Performs program scope s (.cond lhs op rhs body) s
  | goto {t : Int16} {i : Nat} (hfind : findLine? program t = some i) :
    Performs program scope s (.goto t) { s with next := some i }
  | goNowhere {t : Int16} (hfind : findLine? program t = none) :
    Performs program scope s (.goto t) s
  | gosub {t : Int16} {i : Nat} (hfind : findLine? program t = some i) :
    Performs program scope s (.gosub t)
      { s with next := some i, returns := s.next.toList ++ s.returns }
  | callNowhere {t : Int16} (hfind : findLine? program t = none) :
    Performs program scope s (.gosub t) s
  | ret {i : Nat} {rest : List Nat} (hreturns : s.returns = i :: rest) :
    Performs program scope s .ret { s with next := some i, returns := rest }
  | stop : Performs program scope s .stop { s with next := none }

/-- A fault of the line that a state is at. -/
def State.blame (s : State) (fault : Fault) : RuntimeError :=
  .onLine (s.line.getD 0) fault

/-- What comes of input that gives no value. -/
def State.inputError (s : State) : ReadError → RuntimeError
  | .endOfInput => s.blame .endOfInput
  | .invalidText => .stream .invalidText

/-- How a statement fails in a state; only input and output leave a trace. -/
inductive Fails (scope : Scope) (s : State) : Stmt → RuntimeError → State → Prop
  | assign {name : String} {value : Expr} {fault : Fault}
      (heval : eval s.store value = .error fault) :
    Fails scope s (.assign name value) (s.blame fault) s
  | inputText {name : String} {e : ReadError} {rest : List (List UInt8)}
      (htype : scope.typeOf? name = some .string) (hread : readText s.input = (.error e, rest)) :
    Fails scope s (.input name) (s.inputError e) { s with input := rest }
  | inputNumber {name : String} {e : ReadError} {rest : List (List UInt8)}
      (htype : scope.typeOf? name ≠ some .string)
      (hread : readNumber s.input = (.error e, rest)) :
    Fails scope s (.input name) (s.inputError e) { s with input := rest }
  | items {items : List Expr} {fault : Fault} (heval : evalItems s.store items = .error fault) :
    Fails scope s (.print items) (s.blame fault) s
  | output {items : List Expr} {text : String} {output : Output}
      (heval : evalItems s.store items = .ok text)
      (hwrite : s.output.write (text ++ "\n") = (false, output)) :
    Fails scope s (.print items) (.stream .full) { s with output }
  | condLeft {lhs rhs : Expr} {op : Relop} {body : Stmt} {fault : Fault}
      (hlhs : evalNumber s.store lhs = .error fault) :
    Fails scope s (.cond lhs op rhs body) (s.blame fault) s
  | condRight {lhs rhs : Expr} {op : Relop} {body : Stmt} {l : Int16} {fault : Fault}
      (hlhs : evalNumber s.store lhs = .ok l) (hrhs : evalNumber s.store rhs = .error fault) :
    Fails scope s (.cond lhs op rhs body) (s.blame fault) s
  | ret (hreturns : s.returns = []) : Fails scope s .ret (s.blame .emptyStack) s

namespace Fails

variable {stmt : Stmt} {e : RuntimeError} {s s' : State}

/-- A statement that fails leaves all variables alone. -/
theorem store_eq (h : Fails scope s stmt e s') : s'.store = s.store := by
  cases h <;> rfl

/-- A statement that fails makes no jump. -/
theorem next_eq (h : Fails scope s stmt e s') : s'.next = s.next := by
  cases h <;> rfl

/-- A statement that fails leaves all returns alone. -/
theorem returns_eq (h : Fails scope s stmt e s') : s'.returns = s.returns := by
  cases h <;> rfl

/-- A fault is that of the line that the state is at. -/
theorem eq_blame {number : Int16} {fault : Fault}
    (h : Fails scope s stmt (.onLine number fault) s') :
    RuntimeError.onLine number fault = s.blame fault := by
  generalize he : RuntimeError.onLine number fault = e at h
  cases h with
  | @inputText _ cause | @inputNumber _ cause =>
    cases cause <;> cases he
    rfl
  | output => cases he
  | _ =>
    cases he
    rfl

end Fails

/-! ## Actions of the machine -/

/-- A demanded result is there, or it is the fault of the line. -/
theorem run_demand {α : Type} (answer : Except Fault α) (s : State) :
    (demand answer).run s =
      match answer with
      | .ok v => .ok v s
      | .error fault => .error (s.blame fault) s := by
  cases answer <;> rfl

/-- A demanded value is that of the answer, and costs nothing. -/
theorem run_demand_eq_ok_iff {α : Type} {answer : Except Fault α} {s t : State} {v : α} :
    (demand answer).run s = .ok v t ↔ t = s ∧ answer = .ok v := by
  rw [run_demand]
  cases answer with
  | error fault => simp
  | ok w => simp [and_comm, eq_comm]

/-- A demand fails with the fault of the answer, on the line of the state. -/
theorem run_demand_eq_error_iff {α : Type} {answer : Except Fault α} {s t : State}
    {e : RuntimeError} :
    (demand answer).run s = .error e t ↔
      t = s ∧ ∃ fault, e = s.blame fault ∧ answer = .error fault := by
  rw [run_demand]
  cases answer with
  | error fault => simp [and_comm, eq_comm]
  | ok w => simp

/-- The lines that are read are gone, whatever they give. -/
theorem run_receive_eq {α : Type}
    (read : List (List UInt8) → Except ReadError α × List (List UInt8)) (s : State) :
    (receive read).run s =
      (match (read s.input).1 with
        | .ok v => pure v
        | .error .endOfInput => fail .endOfInput
        | .error .invalidText => throw (.stream .invalidText) : Run α).run
          { s with input := (read s.input).2 } :=
  rfl

/-- A value is received from the input, or the reason for its absence stops the run. -/
theorem run_receive {α : Type}
    (read : List (List UInt8) → Except ReadError α × List (List UInt8)) (s : State) :
    (receive read).run s =
      match read s.input with
      | (.ok v, rest) => .ok v { s with input := rest }
      | (.error e, rest) => .error (s.inputError e) { s with input := rest } := by
  rw [run_receive_eq]
  rcases read s.input with ⟨e | v, rest⟩
  · cases e <;> rfl
  · rfl

/-- A text is printed, or as much of it as fits. -/
theorem run_emit (text : String) (s : State) :
    (emit text).run s =
      match s.output.write text with
      | (true, output) => .ok () { s with output }
      | (false, output) => .error (.stream .full) { s with output } := by
  cases h : s.output.write text with
  | mk complete output => cases complete <;> simp [emit, h]

/-! ## Statements of the machine -/

variable (program scope) in
/-- A value is assigned if the expression has one. -/
theorem run_exec_assign (name : String) (value : Expr) (s : State) :
    (exec program scope (.assign name value)).run s =
      match eval s.store value with
      | .ok v => .ok () { s with store := s.store.put name v }
      | .error fault => .error (s.blame fault) s := by
  have hrun : (exec program scope (.assign name value)).run s =
      ((demand (eval s.store value)) >>= fun v => updateStore (·.put name v)).run s := rfl
  rw [hrun, EStateM.run_bind, run_demand]
  cases eval s.store value <;> rfl

variable (program scope) in
/-- A text is read into a variable for texts. -/
theorem run_exec_input_text {name : String} (htype : scope.typeOf? name = some .string)
    (s : State) :
    (exec program scope (.input name)).run s =
      match readText s.input with
      | (.ok text, rest) =>
        .ok () { s with store := s.store.put name (.text text), input := rest }
      | (.error e, rest) => .error (s.inputError e) { s with input := rest } := by
  have hrun : (exec program scope (.input name)).run s =
      (receive readText >>= fun text => updateStore (·.put name (.text text))).run s := by
    simp only [exec, receiveFor, htype, if_true, bind_assoc, pure_bind]
  rw [hrun, EStateM.run_bind, run_receive]
  rcases readText s.input with ⟨_ | _, rest⟩ <;> rfl

variable (program scope) in
/-- A number is read into any other variable. -/
theorem run_exec_input_number {name : String} (htype : scope.typeOf? name ≠ some .string)
    (s : State) :
    (exec program scope (.input name)).run s =
      match readNumber s.input with
      | (.ok n, rest) =>
        .ok () { s with store := s.store.put name (.integer n), input := rest }
      | (.error e, rest) => .error (s.inputError e) { s with input := rest } := by
  have hrun : (exec program scope (.input name)).run s =
      (receive readNumber >>= fun n => updateStore (·.put name (.integer n))).run s := by
    simp only [exec, receiveFor, htype, if_false, bind_assoc, pure_bind]
  rw [hrun, EStateM.run_bind, run_receive]
  rcases readNumber s.input with ⟨_ | _, rest⟩ <;> rfl

variable (program scope) in
/-- Items are printed on a line if all of them have values. -/
theorem run_exec_print (items : List Expr) (s : State) :
    (exec program scope (.print items)).run s =
      match evalItems s.store items with
      | .ok text => (emit (text ++ "\n")).run s
      | .error fault => .error (s.blame fault) s := by
  have hrun : (exec program scope (.print items)).run s =
      ((demand (evalItems s.store items)) >>= fun text => emit (text ++ "\n")).run s := rfl
  rw [hrun, EStateM.run_bind, run_demand]
  cases evalItems s.store items <;> rfl

variable (program scope) in
/-- The body of a condition is executed if both sides are numbers in the relation. -/
theorem run_exec_cond (lhs : Expr) (op : Relop) (rhs : Expr) (body : Stmt) (s : State) :
    (exec program scope (.cond lhs op rhs body)).run s =
      match evalNumber s.store lhs, evalNumber s.store rhs with
      | .ok l, .ok r =>
        if op.holds (compare l r) then (exec program scope body).run s else .ok () s
      | .error fault, _ => .error (s.blame fault) s
      | .ok _, .error fault => .error (s.blame fault) s := by
  have hrun : (exec program scope (.cond lhs op rhs body)).run s =
      (demand (evalNumber s.store lhs) >>= fun l => get >>= fun s =>
        demand (evalNumber s.store rhs) >>= fun r =>
          if op.holds (compare l r) then exec program scope body else pure ()).run s := rfl
  rw [hrun, EStateM.run_bind, run_demand]
  cases evalNumber s.store lhs with
  | error fault => rfl
  | ok l =>
    change ((demand (evalNumber s.store rhs)) >>= fun r =>
      if op.holds (compare l r) then exec program scope body else pure ()).run s = _
    rw [EStateM.run_bind, run_demand]
    cases evalNumber s.store rhs with
    | error fault => rfl
    | ok r => cases h : op.holds (compare l r) <;> simp [h]

variable (program scope) in
/-- A jump goes to the line that is found. -/
theorem run_exec_goto (target : Int16) (s : State) :
    (exec program scope (.goto target)).run s =
      match findLine? program target with
      | some i => .ok () { s with next := some i }
      | none => .ok () s := by
  simp only [exec]
  cases findLine? program target <;> rfl

variable (program scope) in
/-- A jump with return remembers where it came from. -/
theorem run_exec_gosub (target : Int16) (s : State) :
    (exec program scope (.gosub target)).run s =
      match findLine? program target with
      | some i => .ok () { s with next := some i, returns := s.next.toList ++ s.returns }
      | none => .ok () s := by
  simp only [exec]
  cases findLine? program target <;> rfl

variable (program scope) in
/-- A return goes to the place remembered last. -/
theorem run_exec_ret (s : State) :
    (exec program scope .ret).run s =
      match s.returns with
      | i :: rest => .ok () { s with next := some i, returns := rest }
      | [] => .error (s.blame .emptyStack) s := by
  have hrun : (exec program scope .ret).run s =
      (match s.returns with
        | i :: rest => modify fun s => { s with next := some i, returns := rest }
        | [] => fail .emptyStack : Run Unit).run s := rfl
  rw [hrun]
  cases s.returns <;> rfl

/-! ## The rules are those of the machine -/

variable (program scope) in
/-- What conditions come down to is executed in their place. -/
theorem run_exec_active (stmt : Stmt) (s : State) :
    (exec program scope stmt).run s = (exec program scope (stmt.active s.store)).run s := by
  induction stmt with
  | cond lhs op rhs body ih =>
    rcases Stmt.active_cond_cases s.store lhs op rhs body with
      ⟨l, r, hl, hr, hholds, hbody⟩ | ⟨-, hsame⟩
    · rw [hbody, run_exec_cond, hl, hr]
      simp only [hholds, if_true]
      exact ih
    · rw [hsame]
  | _ => rfl

/-- The machine succeeds where a rule says so. -/
theorem Performs.run_exec_eq {stmt : Stmt} {s s' : State} (h : Performs program scope s stmt s') :
    (exec program scope stmt).run s = .ok () s' := by
  cases h with
  | declare => rfl
  | assign heval => rw [run_exec_assign, heval]
  | inputText htype hread => rw [run_exec_input_text program scope htype, hread]
  | inputNumber htype hread => rw [run_exec_input_number program scope htype, hread]
  | print heval hwrite => simp only [run_exec_print, heval, run_emit, hwrite]
  | skip hlhs hrhs hfalse => simp [run_exec_cond, hlhs, hrhs, hfalse]
  | goto hfind | goNowhere hfind => rw [run_exec_goto, hfind]
  | gosub hfind | callNowhere hfind => rw [run_exec_gosub, hfind]
  | ret hreturns => rw [run_exec_ret, hreturns]
  | stop => rfl

/-- The machine fails where a rule says so. -/
theorem Fails.run_exec_eq {stmt : Stmt} {s s' : State} {e : RuntimeError}
    (h : Fails scope s stmt e s') : (exec program scope stmt).run s = .error e s' := by
  cases h with
  | assign heval => rw [run_exec_assign, heval]
  | inputText htype hread => rw [run_exec_input_text program scope htype, hread]
  | inputNumber htype hread => rw [run_exec_input_number program scope htype, hread]
  | items heval => rw [run_exec_print, heval]
  | output heval hwrite => simp only [run_exec_print, heval, run_emit, hwrite]
  | condLeft hlhs => rw [run_exec_cond, hlhs]
  | condRight hlhs hrhs => rw [run_exec_cond, hlhs, hrhs]
  | ret hreturns => rw [run_exec_ret, hreturns]

variable (program scope) in
/-- There is a rule for every statement in every state. -/
theorem exists_performs_or_fails (stmt : Stmt) (s : State) :
    (∃ s', Performs program scope s (stmt.active s.store) s') ∨
      ∃ e s', Fails scope s (stmt.active s.store) e s' := by
  induction stmt with
  | declare type names => exact .inl ⟨_, .declare⟩
  | assign name value =>
    cases heval : eval s.store value with
    | ok v => exact .inl ⟨_, .assign heval⟩
    | error fault => exact .inr ⟨_, _, .assign heval⟩
  | input name =>
    by_cases htype : scope.typeOf? name = some .string
    · rcases hread : readText s.input with ⟨e | text, rest⟩
      · exact .inr ⟨_, _, .inputText htype hread⟩
      · exact .inl ⟨_, .inputText htype hread⟩
    · rcases hread : readNumber s.input with ⟨e | n, rest⟩
      · exact .inr ⟨_, _, .inputNumber htype hread⟩
      · exact .inl ⟨_, .inputNumber htype hread⟩
  | print items =>
    cases heval : evalItems s.store items with
    | error fault => exact .inr ⟨_, _, .items heval⟩
    | ok text =>
      rcases hwrite : s.output.write (text ++ "\n") with ⟨_ | _, output⟩
      · exact .inr ⟨_, _, .output heval hwrite⟩
      · exact .inl ⟨_, .print heval hwrite⟩
  | cond lhs op rhs body ih =>
    rcases Stmt.active_cond_cases s.store lhs op rhs body with
      ⟨l, r, -, -, -, hbody⟩ | ⟨hfalse, hsame⟩
    · rw [hbody]
      exact ih
    · rw [hsame]
      cases hlhs : evalNumber s.store lhs with
      | error fault => exact .inr ⟨_, _, .condLeft hlhs⟩
      | ok l =>
        cases hrhs : evalNumber s.store rhs with
        | error fault => exact .inr ⟨_, _, .condRight hlhs hrhs⟩
        | ok r => exact .inl ⟨_, .skip hlhs hrhs (hfalse l r hlhs hrhs)⟩
  | goto target =>
    cases hfind : findLine? program target with
    | some i => exact .inl ⟨_, .goto hfind⟩
    | none => exact .inl ⟨_, .goNowhere hfind⟩
  | gosub target =>
    cases hfind : findLine? program target with
    | some i => exact .inl ⟨_, .gosub hfind⟩
    | none => exact .inl ⟨_, .callNowhere hfind⟩
  | ret =>
    cases hreturns : s.returns with
    | cons i rest => exact .inl ⟨_, .ret hreturns⟩
    | nil => exact .inr ⟨_, _, .ret hreturns⟩
  | stop => exact .inl ⟨_, .stop⟩

/-- A statement succeeds by the rules for what its conditions come down to. -/
theorem run_exec_eq_ok_iff {stmt : Stmt} {s s' : State} {u : Unit} :
    (exec program scope stmt).run s = .ok u s' ↔
      Performs program scope s (stmt.active s.store) s' := by
  rw [run_exec_active]
  constructor
  · intro hrun
    rcases exists_performs_or_fails program scope stmt s with ⟨m, hperforms⟩ | ⟨e, m, hfails⟩
    · rw [hperforms.run_exec_eq] at hrun
      cases hrun
      exact hperforms
    · rw [hfails.run_exec_eq] at hrun
      cases hrun
  · exact fun hperforms => hperforms.run_exec_eq

/-- A statement fails by the rules for what its conditions come down to. -/
theorem run_exec_eq_error_iff {stmt : Stmt} {s s' : State} {e : RuntimeError} :
    (exec program scope stmt).run s = .error e s' ↔
      Fails scope s (stmt.active s.store) e s' := by
  rw [run_exec_active]
  constructor
  · intro hrun
    rcases exists_performs_or_fails program scope stmt s with ⟨m, hperforms⟩ | ⟨e', m, hfails⟩
    · rw [hperforms.run_exec_eq] at hrun
      cases hrun
    · rw [hfails.run_exec_eq] at hrun
      cases hrun
      exact hfails
  · exact fun hfails => hfails.run_exec_eq

end Machine

end LineBasic
