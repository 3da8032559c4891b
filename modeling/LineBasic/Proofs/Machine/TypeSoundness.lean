import Mathlib
import LineBasic.Proofs.Check.Checked
import LineBasic.Proofs.Machine.History
import LineBasic.Proofs.Machine.StoreTyping

/-!
# Type soundness

The checker goes through a program line by line, but a machine may execute the lines in any
order, may read input in between and may go on behind an error.  Whatever it does, the variables
are those of the scope and hold values of their types, and only a comparison of texts can be
found to need numbers.

Main results:

- `Performs.symbols_eq`: a statement that succeeds keeps the types of all variables.
- `Fails.error_cases`: the ways in which a typed statement can fail.
- `Checked.WellFormed.symbols_eq`: every state of a checked program has the symbols of its scope.
- `type_soundness`: the same for all runs of an accepted text, with what they can fail with.
-/

namespace LineBasic

open Machine

/-! ## Under conditions -/

/-- What conditions come down to is well typed if the whole statement is. -/
theorem Stmt.WellTyped.active {scope : Scope} {s : Stmt} (h : s.WellTyped scope)
    (store : Store) : (s.active store).WellTyped scope :=
  Stmt.active_of_body (P := fun s => s.WellTyped scope) And.right h store

/-- What conditions come down to is canonical if the whole statement is. -/
theorem Stmt.IsCanonical.active {s : Stmt} (h : s.IsCanonical) (store : Store) :
    (s.active store).IsCanonical :=
  Stmt.active_of_body (P := Stmt.IsCanonical) (fun h => h.2.2) h store

namespace Machine

variable {program : Program} {scope : Scope}

/-! ## Statements -/

/-- The initial values of declared variables keep the types of all variables. -/
theorem symbols_foldl_reset_of_mem {type : SymbolType} {names : List String} {store : Store}
    (hnodup : (store.symbols.map Symbol.name).Nodup)
    (h : ∀ x ∈ names, ⟨x, type⟩ ∈ store.symbols) :
    (names.foldl (fun store x => store.reset x type) store).symbols = store.symbols := by
  induction names generalizing store with
  | nil => rfl
  | cons x rest ih =>
    have hfirst : (store.reset x type).symbols = store.symbols :=
      Store.symbols_reset_of_mem hnodup (h x List.mem_cons_self)
    rw [List.foldl_cons, ih (by rwa [hfirst]) fun y hy => ?_, hfirst]
    rw [hfirst]
    exact h y (List.mem_cons_of_mem _ hy)

/-- A statement that succeeds keeps the types of all variables. -/
theorem Performs.symbols_eq (hglobal : scope.IsGlobal) {stmt : Stmt}
    (htyped : stmt.WellTyped scope) (hcanonical : stmt.IsCanonical) {s s' : State}
    (hstore : s.store.symbols = scope.symbols) (h : Performs program scope s stmt s') :
    s'.store.symbols = scope.symbols := by
  have hnodup : (s.store.symbols.map Symbol.name).Nodup := by
    rw [hstore]
    exact hglobal.nodup
  have hput {x : String} {v : Value} (hupper : upper x = x)
      (htype : scope.typeOf? x = some v.type) :
      (s.store.put x v).symbols = scope.symbols := by
    have hmem := hglobal.typeOf?_eq_some_iff.1 htype
    rw [hupper, ← hstore] at hmem
    rw [Store.symbols_put_of_mem hnodup hmem, hstore]
  cases h with
  | @declare type names =>
    change (names.foldl _ s.store).symbols = _
    rw [symbols_foldl_reset_of_mem hnodup fun x hx => ?_, hstore]
    have hmem := hglobal.typeOf?_eq_some_iff.1 (htyped x hx)
    rwa [hcanonical x hx, ← hstore] at hmem
  | @assign name value v heval =>
    rcases htyped with ⟨type, hname, hvalue⟩
    rcases eval_ok_or_arithmetic hglobal hstore hvalue with ⟨w, hw, hwtype⟩ | ⟨fault, hfault, -⟩
    · rw [heval] at hw
      cases hw
      exact hput hcanonical.1 (hwtype ▸ hname)
    · rw [heval] at hfault
      cases hfault
  | inputText htype hread => exact hput hcanonical htype
  | @inputNumber name n rest htype hread =>
    rcases htyped with ⟨type, hname⟩
    -- every other type than that of texts is the one of numbers
    have hnumber : type = .integer := by
      cases type with
      | integer => rfl
      | string => exact absurd hname htype
      | void => exact absurd rfl (hglobal.type_ne_void _ (hglobal.typeOf?_eq_some_iff.1 hname))
    subst hnumber
    exact hput hcanonical hname
  | print | skip | goto | goNowhere | gosub | callNowhere | ret | stop => exact hstore

/-- The ways in which a typed statement can fail: its arithmetic, the returns, the streams, and
a comparison of texts. -/
theorem Fails.error_cases (hglobal : scope.IsGlobal) {stmt : Stmt}
    (htyped : stmt.WellTyped scope) {s s' : State} (hstore : s.store.symbols = scope.symbols)
    {e : RuntimeError} (h : Fails scope s stmt e s') :
    (∃ fault, e = s.blame fault ∧
      (fault.IsArithmetic ∨ fault = .emptyStack ∧ stmt = .ret ∨ fault = .endOfInput)) ∨
    (∃ cause, e = .stream cause) ∨
    (e = s.blame .nonInteger ∧ ∃ lhs op rhs body, stmt = .cond lhs op rhs body ∧
      lhs.type scope = .ok .string ∧ rhs.type scope = .ok .string) := by
  have hread (cause : ReadError) :
      (∃ fault, s.inputError cause = s.blame fault ∧
        (fault.IsArithmetic ∨ fault = .emptyStack ∧ stmt = .ret ∨ fault = .endOfInput)) ∨
      (∃ cause', s.inputError cause = .stream cause') := by
    cases cause with
    | endOfInput => exact .inl ⟨_, rfl, .inr (.inr rfl)⟩
    | invalidText => exact .inr ⟨_, rfl⟩
  cases h with
  | assign heval =>
    rcases htyped with ⟨type, -, hvalue⟩
    exact .inl ⟨_, rfl, .inl (isArithmetic_of_eval_eq_error hglobal hstore hvalue heval)⟩
  | inputText _ _ => exact (hread _).imp_right .inl
  | inputNumber _ _ => exact (hread _).imp_right .inl
  | items heval =>
    exact .inl ⟨_, rfl, .inl (isArithmetic_of_evalItems_eq_error hglobal hstore htyped heval)⟩
  | output _ _ => exact .inr (.inl ⟨_, rfl⟩)
  | @condLeft lhs rhs op body fault hlhs =>
    rcases htyped with ⟨⟨type, hl, hr⟩, -⟩
    rcases hglobal.integer_or_string hl with rfl | rfl
    · have harith := isArithmetic_of_evalNumber_eq_error hglobal hstore hl hlhs
      exact .inl ⟨_, rfl, .inl harith⟩
    · rw [evalNumber_of_string hglobal hstore hl] at hlhs
      cases hlhs
      exact .inr (.inr ⟨rfl, lhs, op, rhs, body, rfl, hl, hr⟩)
  | @condRight lhs rhs op body l fault hlhs hrhs =>
    rcases htyped with ⟨⟨type, hl, hr⟩, -⟩
    rcases hglobal.integer_or_string hr with rfl | rfl
    · have harith := isArithmetic_of_evalNumber_eq_error hglobal hstore hr hrhs
      exact .inl ⟨_, rfl, .inl harith⟩
    · rw [evalNumber_of_string hglobal hstore hl] at hlhs
      cases hlhs
  | ret _ => exact .inl ⟨_, rfl, .inr (.inl ⟨rfl, rfl⟩)⟩

end Machine

/-! ## Checked programs -/

/-- The machine has moved behind a line with this number whose conditions come down to one that
compares two texts. -/
def Checked.ComparesTexts (checked : Checked) (number : Int16) (s : State) : Prop :=
  ∃ i line lhs op rhs body, s.next = some (i + 1) ∧ checked.program.lines[i]? = some line ∧
    line.number = number ∧ line.stmt.active s.store = .cond lhs op rhs body ∧
    lhs.type checked.scope = .ok .string ∧ rhs.type checked.scope = .ok .string

namespace Checked.WellFormed

variable {checked : Checked} {input : List UInt8} {room : Option Nat}

/-- The variables at the start are those of the scope. -/
theorem symbols_start (h : checked.WellFormed) :
    (State.start checked.scope input room).store.symbols = checked.scope.symbols :=
  Store.symbols_ofSymbols h.isGlobal

/-- A line keeps the types of all variables, whether it succeeds or fails. -/
theorem symbols_advance (h : checked.WellFormed) {s s' : State} {event : Event}
    (hstore : s.store.symbols = checked.scope.symbols)
    (hadvance : Advance checked.program checked.scope s event s') :
    s'.store.symbols = checked.scope.symbols := by
  rcases hadvance.performs_or_fails with ⟨line, -, hline, hstmt, ⟨-, hperforms⟩ | ⟨e, -, hfails⟩⟩
  · have hmem := List.mem_of_getElem? hline
    rw [hstmt] at hperforms
    have henter : (s.enter event.index line).store.symbols = checked.scope.symbols := hstore
    exact hperforms.symbols_eq h.isGlobal ((h.typed line hmem).active s.store)
      ((h.canonical line hmem).active s.store) henter
  · rw [hfails.store_eq]
    exact hstore

/-- Every state of a checked program has the symbols of its scope. -/
theorem symbols_eq (h : checked.WellFormed) {trace : List Event} {s : State}
    (hhistory : History checked.program checked.scope (.start checked.scope input room) trace s) :
    s.store.symbols = checked.scope.symbols :=
  hhistory.invariant h.symbols_start fun _ _ _ => h.symbols_advance

/-- An error of a run of a checked program is none of types, but for a comparison of texts. -/
theorem error_cases (h : checked.WellFormed) {trace : List Event} {s s' : State} {n : Nat}
    {e : RuntimeError}
    (hhistory : History checked.program checked.scope (.start checked.scope input room) trace s)
    (hrun : (runFor checked.program checked.scope n).run s = .error e s') :
    e = .pcOutOfRange s'.line ∨ (∃ cause, e = .stream cause) ∨
      ∃ number fault, e = .onLine number fault ∧
        (fault.IsArithmetic ∨ fault = .emptyStack ∨ fault = .endOfInput ∨
          fault = .nonInteger ∧ checked.ComparesTexts number s') := by
  obtain ⟨later, hlater, ⟨earlier, last, rfl, hlast, -⟩ | ⟨-, hout, -⟩⟩ :=
    history_of_runFor_eq_error hrun
  · have hall := hhistory.trans hlater
    rw [← List.append_assoc] at hall
    rcases hall.exists_of_append with ⟨m, hbefore, hend⟩
    obtain ⟨line, hnext, hline, hstmt, ⟨hnone, -⟩ | ⟨e', he', hfails⟩⟩ :=
      hend.advance_of_singleton.performs_or_fails
    · rw [hlast] at hnone
      cases hnone
    · rw [hlast] at he'
      cases he'
      have htyped := (h.typed line (List.mem_of_getElem? hline)).active m.store
      have hbefore' := h.symbols_eq hbefore
      have hstore : (m.enter last.index line).store.symbols = checked.scope.symbols := hbefore'
      have hsame : s'.store = m.store := hfails.store_eq
      rw [← hstmt] at htyped
      rcases hfails.error_cases h.isGlobal htyped hstore with
        ⟨fault, rfl, hfault⟩ | hstream | ⟨rfl, hcond⟩
      · refine .inr (.inr ⟨line.number, fault, rfl, ?_⟩)
        rcases hfault with harith | ⟨hempty, -⟩ | hclosed
        · exact .inl harith
        · exact .inr (.inl hempty)
        · exact .inr (.inr (.inl hclosed))
      · exact .inr (.inl hstream)
      · rcases hcond with ⟨lhs, op, rhs, body, hactive, hl, hr⟩
        rw [hstmt, ← hsame] at hactive
        have htexts : checked.ComparesTexts line.number s' :=
          ⟨last.index, line, lhs, op, rhs, body, hfails.next_eq, hline, rfl, hactive, hl, hr⟩
        exact .inr (.inr ⟨line.number, _, rfl, .inr (.inr (.inr ⟨rfl, htexts⟩))⟩)
  · exact .inl hout

end Checked.WellFormed

/-- Type soundness.  After any number of runs of an accepted text on any input, and any number of
lines of one more run, the store has the names of the scope and every name has a value of its
type, so that no expression computes with a text.  No run fails for a variable without a value,
and one fails for texts only in a condition that compares two of them. -/
theorem type_soundness {source : String} {checked : Checked} (h : check source = .ok checked)
    (input : List UInt8) (room : Option Nat) (k n : Nat) {before : State}
    (hbefore : before =
      (runTimes checked.program checked.scope k (.start checked.scope input room)).2) :
    (∀ s, ((∃ ended, (runFor checked.program checked.scope n).run before = .ok ended s) ∨
        ∃ e, (runFor checked.program checked.scope n).run before = .error e s) →
      s.store.map Prod.fst = checked.scope.symbols.map Symbol.name ∧
      (∀ x type, checked.scope.typeOf? x = some type → ∃ v, s.get? x = some v ∧ v.type = type) ∧
      ∀ e type, e.type checked.scope = .ok type → eval s.store e ≠ .error .nonInteger) ∧
    (∀ e s, (runFor checked.program checked.scope n).run before = .error e s →
      (∀ number x, e ≠ .onLine number (.undefinedVariable x)) ∧
      ∀ number, e = .onLine number .nonInteger → checked.ComparesTexts number s) ∧
    ∀ e, .error e ∈
        (runTimes checked.program checked.scope k (.start checked.scope input room)).1 →
      ∀ number x, e ≠ .onLine number (.undefinedVariable x) := by
  subst hbefore
  have hwell := Checked.wellFormed_of_check h
  obtain ⟨trace, hhistory⟩ := history_of_runTimes checked.program checked.scope k
    (.start checked.scope input room)
  have herror {trace : List Event} {m s : State} {lines : Nat} {e : RuntimeError}
      (hm : History checked.program checked.scope (.start checked.scope input room) trace m)
      (hrun : (runFor checked.program checked.scope lines).run m = .error e s) :
      (∀ number x, e ≠ .onLine number (.undefinedVariable x)) ∧
        ∀ number, e = .onLine number .nonInteger → checked.ComparesTexts number s := by
    rcases hwell.error_cases hm hrun with rfl | ⟨cause, rfl⟩ | ⟨number, fault, rfl, hfault⟩
    · exact ⟨by simp, by simp⟩
    · exact ⟨by simp, by simp⟩
    · rcases hfault with (rfl | rfl) | rfl | rfl | ⟨rfl, htexts⟩
      · exact ⟨by simp, by simp⟩
      · exact ⟨by simp, by simp⟩
      · exact ⟨by simp, by simp⟩
      · exact ⟨by simp, by simp⟩
      · refine ⟨by simp, ?_⟩
        rintro _ ⟨⟩
        exact htexts
  refine ⟨?_, fun e s hrun => herror hhistory hrun, ?_⟩
  · intro s hs
    have hstore : s.store.symbols = checked.scope.symbols := by
      rcases hs with ⟨ended, hrun⟩ | ⟨e, hrun⟩
      · rcases history_of_runFor_eq_ok hrun with ⟨later, hlater, -⟩
        exact hwell.symbols_eq (hhistory.trans hlater)
      · rcases history_of_runFor_eq_error hrun with ⟨later, hlater, -⟩
        exact hwell.symbols_eq (hhistory.trans hlater)
    refine ⟨?_, fun x type => exists_get?_of_typeOf? hwell.isGlobal hstore, ?_⟩
    · rw [← Store.map_name_symbols, hstore]
    · intro e type htype hfault
      rcases isArithmetic_of_eval_eq_error hwell.isGlobal hstore htype hfault with h | h
      · cases h
      · cases h
  · intro e hmem
    rcases exists_run_of_error_mem hmem with ⟨earlier, m, m', hm, hrun⟩
    exact (herror hm hrun).1

/-- A run that compares texts stops there, with all variables in place. -/
theorem comparison_of_texts_stops :
    ∃ checked s,
      check "10 STRING S\r\n20 IF 1 < 2 THEN IF S == S THEN END" = .ok checked ∧
      (runFor checked.program checked.scope 2).run (.start checked.scope [] none) =
        .error (.onLine 20 .nonInteger) s ∧
      s.store.map Prod.fst = ["S"] ∧ checked.ComparesTexts 20 s := by
  let checked : Checked :=
    ⟨⟨[⟨10, .declare .string ["S"]⟩,
      ⟨20, .cond (.number 1) .less (.number 2) (.cond (.name "S") .equal (.name "S") .stop)⟩]⟩,
      ⟨⟨"GLOBAL", [⟨"S", .string⟩]⟩, []⟩⟩
  have hcheck : check "10 STRING S\r\n20 IF 1 < 2 THEN IF S == S THEN END" = .ok checked := by cbv
  have hrun : (runFor checked.program checked.scope 2).run (.start checked.scope [] none) =
      .error (.onLine 20 .nonInteger)
        { store := [("S", .text "")], next := some 2, line := some 20 } := by cbv
  rcases type_soundness hcheck [] none 0 2 rfl with ⟨hstates, herrors, -⟩
  exact ⟨checked, _, hcheck, hrun, (hstates _ (.inr ⟨_, hrun⟩)).1, (herrors _ _ hrun).2 20 rfl⟩

end LineBasic
