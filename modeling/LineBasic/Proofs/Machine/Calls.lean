import LineBasic.Proofs.Machine.History

/-!
# Calls and returns

In the history of a run, jumps with return and returns match like brackets.  A machine knows
nothing of this: it keeps a list of places to come back to.  The list holds, at every moment,
the places behind the jumps that are still open.

Main definitions:

- `Balanced`: events in which every call is closed by its return, and every return closes one.
- `HasOpenCall`: events with a call that no return closes.
- `Pending`: events with their open calls, the latest first.

Main results:

- `History.returns_of_balanced`: balanced events leave the list of returns as it was.
- `History.closes_or_pending`: the returns are those of the open calls.
- `History.returns_eq_nil_iff`: there is nowhere to come back to if and only if no call is open.
-/

namespace LineBasic

open Machine

/-! ## Where jumps go -/

namespace Program.WellNumbered

variable {program : Program}

/-- A number is found where its line is. -/
theorem findLine?_eq_some_iff (h : program.WellNumbered) {t : Int16} {i : Nat} :
    findLine? program t = some i ↔ ∃ line, program.lines[i]? = some line ∧ line.number = t := by
  unfold findLine?
  rw [List.findIdx?_eq_some_iff_getElem]
  constructor
  · rintro ⟨hi, hnumber, -⟩
    exact ⟨_, List.getElem?_eq_getElem hi, by simpa using hnumber⟩
  · rintro ⟨line, hline, rfl⟩
    rcases List.getElem?_eq_some_iff.1 hline with ⟨hi, rfl⟩
    refine ⟨hi, by simp, ?_⟩
    intro j hji hj
    have hsame := h.eq_of_number_eq (List.getElem?_eq_getElem (Nat.lt_trans hji hi)) hline
      (by simpa using hj)
    exact Nat.ne_of_lt hji hsame

/-- What conditions come down to jumps to a number that some line has. -/
theorem exists_findLine? (h : program.WellNumbered) {line : Line} (hline : line ∈ program.lines)
    {store : Store} {t : Int16}
    (hjump : line.stmt.active store = .goto t ∨ line.stmt.active store = .gosub t) :
    ∃ i, findLine? program t = some i := by
  have hcore : line.stmt.core = .goto t ∨ line.stmt.core = .gosub t := by
    rcases line.stmt.active_eq_core_or store with hcore | ⟨lhs, op, rhs, body, hcond⟩
    · rwa [← hcore]
    · rw [hcond] at hjump
      rcases hjump with hjump | hjump <;> cases hjump
  have hmem := h.target_mem line hline t (Stmt.target?_eq_some_iff.2 hcore)
  rcases List.mem_map.1 hmem with ⟨target, htarget, hnumber⟩
  rcases List.getElem?_of_mem htarget with ⟨i, hi⟩
  exact ⟨i, h.findLine?_eq_some_iff.2 ⟨target, hi, hnumber⟩⟩

end Program.WellNumbered

namespace Machine

variable {program : Program} {scope : Scope}

/-! ## Events -/

/-- A jump with return that was made. -/
def Event.isCall (event : Event) : Bool :=
  match event.stmt, event.error with
  | .gosub _, none => true
  | _, _ => false

/-- A return that found a place to go back to. -/
def Event.isReturn (event : Event) : Bool :=
  match event.stmt, event.error with
  | .ret, none => true
  | _, _ => false

/-- What a call is. -/
theorem Event.isCall_iff {event : Event} :
    event.isCall = true ↔ (∃ t, event.stmt = .gosub t) ∧ event.error = none := by
  unfold Event.isCall
  split <;> simp_all

/-- What a return is. -/
theorem Event.isReturn_iff {event : Event} :
    event.isReturn = true ↔ event.stmt = .ret ∧ event.error = none := by
  unfold Event.isReturn
  split <;> simp_all

/-- A call remembers the place behind its line. -/
theorem Advance.returns_of_isCall (hnumbered : program.WellNumbered) {s s' : State} {event : Event}
    (h : Advance program scope s event s') (hcall : event.isCall = true) :
    s'.returns = (event.index + 1) :: s.returns := by
  rcases Event.isCall_iff.1 hcall with ⟨⟨t, hgosub⟩, herror⟩
  rcases h.performs_or_fails with ⟨line, -, hline, hstmt, ⟨-, hperforms⟩ | ⟨e, he, -⟩⟩
  · rw [hgosub] at hperforms hstmt
    rcases hnumbered.exists_findLine? (List.mem_of_getElem? hline) (.inr hstmt.symm) with ⟨i, hi⟩
    cases hperforms with
    | gosub => rfl
    | callNowhere hfind =>
      rw [hi] at hfind
      cases hfind
  · rw [herror] at he
    cases he

/-- A return goes to the place remembered last and forgets it. -/
theorem Advance.returns_of_isReturn {s s' : State} {event : Event}
    (h : Advance program scope s event s') (hreturn : event.isReturn = true) :
    ∃ i, s.returns = i :: s'.returns ∧ s'.next = some i := by
  rcases Event.isReturn_iff.1 hreturn with ⟨hret, herror⟩
  rcases h.performs_or_fails with ⟨line, -, -, -, ⟨-, hperforms⟩ | ⟨e, he, -⟩⟩
  · rw [hret] at hperforms
    cases hperforms with
    | ret hreturns => exact ⟨_, hreturns, rfl⟩
  · rw [herror] at he
    cases he

/-- All other events leave the places to come back to alone. -/
theorem Advance.returns_of_other {s s' : State} {event : Event}
    (h : Advance program scope s event s') (hcall : event.isCall = false)
    (hreturn : event.isReturn = false) : s'.returns = s.returns := by
  rcases h.performs_or_fails with ⟨line, -, -, -, ⟨herror, hperforms⟩ | ⟨e, -, hfails⟩⟩
  · generalize hstmt : event.stmt = stmt at hperforms
    have hnocall : ∀ t, stmt ≠ .gosub t := by
      rintro t rfl
      have htrue := Event.isCall_iff.2 ⟨⟨t, hstmt⟩, herror⟩
      rw [hcall] at htrue
      cases htrue
    have hnoreturn : stmt ≠ .ret := by
      rintro rfl
      have htrue := Event.isReturn_iff.2 ⟨hstmt, herror⟩
      rw [hreturn] at htrue
      cases htrue
    cases hperforms with
    | gosub => exact absurd rfl (hnocall _)
    | ret => exact absurd rfl hnoreturn
    | _ => rfl
  · exact hfails.returns_eq

/-! ## Brackets -/

/-- Events in which every call is closed by its return, and every return closes a call. -/
inductive Balanced : List Event → Prop
  | nil : Balanced []
  | other {event : Event} {rest : List Event} (hcall : event.isCall = false)
      (hreturn : event.isReturn = false) (hrest : Balanced rest) : Balanced (event :: rest)
  | call {call ret : Event} {inner rest : List Event} (hcall : call.isCall = true)
      (hinner : Balanced inner) (hreturn : ret.isReturn = true) (hrest : Balanced rest) :
    Balanced (call :: (inner ++ ret :: rest))

/-- Events with a call that no return closes, where a return closes a call if what lies between
them is balanced. -/
def HasOpenCall (trace : List Event) : Prop :=
  ∃ earlier call inner, trace = earlier ++ call :: inner ∧ call.isCall = true ∧
    ∀ body ret later, inner = body ++ ret :: later → ret.isReturn = true → ¬ Balanced body

namespace Balanced

/-- Balanced events one after the other are balanced. -/
theorem append {first second : List Event} (hfirst : Balanced first) (hsecond : Balanced second) :
    Balanced (first ++ second) := by
  induction hfirst with
  | nil => exact hsecond
  | other hcall hreturn _ ih => exact other hcall hreturn ih
  | call hcall hinner hreturn _ _ ih =>
    rw [List.cons_append, List.append_assoc]
    exact call hcall hinner hreturn ih

/-- A call, what it encloses, and its return are balanced. -/
theorem closed {call ret : Event} {inner : List Event} (hcall : call.isCall = true)
    (hinner : Balanced inner) (hreturn : ret.isReturn = true) :
    Balanced (call :: (inner ++ [ret])) :=
  Balanced.call hcall hinner hreturn nil

end Balanced

/-- The number of calls left open behind events that begin with some open calls, if no return
comes without one. -/
def openCalls : List Event → Nat → Option Nat
  | [], n => some n
  | event :: rest, n =>
    if event.isCall then
      openCalls rest (n + 1)
    else if event.isReturn then
      match n with
      | 0 => none
      | n + 1 => openCalls rest n
    else
      openCalls rest n

/-- Events are counted one part after the other. -/
theorem openCalls_append (first second : List Event) (n : Nat) :
    openCalls (first ++ second) n = (openCalls first n).bind (openCalls second) := by
  induction first generalizing n with
  | nil => rfl
  | cons event rest ih =>
    simp only [List.cons_append, openCalls]
    split
    · exact ih _
    · split
      · cases n with
        | zero => rfl
        | succ n => exact ih n
      · exact ih n

/-- No call is a return. -/
theorem Event.isCall_of_isReturn {event : Event} (h : event.isReturn = true) :
    event.isCall = false := by
  have hret := (Event.isReturn_iff.1 h).1
  simp [Event.isCall, hret]

/-- Balanced events open as many calls as they close. -/
theorem Balanced.openCalls_eq {events : List Event} (h : Balanced events) (n : Nat) :
    openCalls events n = some n := by
  induction h generalizing n with
  | nil => rfl
  | other hcall hreturn _ ih => simp [openCalls, hcall, hreturn, ih]
  | call hcall _ hreturn _ ihinner ihrest =>
    have hret := Event.isCall_of_isReturn hreturn
    simp [openCalls, hcall, openCalls_append, ihinner, hret, hreturn, ihrest]

/-- Balanced events have no return that closes a call before them. -/
theorem Balanced.not_closing {events body later : List Event} {ret : Event}
    (h : Balanced events) (hevents : events = body ++ ret :: later)
    (hreturn : ret.isReturn = true) : ¬ Balanced body := by
  intro hbody
  have hcount := h.openCalls_eq 0
  have hret := Event.isCall_of_isReturn hreturn
  rw [hevents, openCalls_append, hbody.openCalls_eq] at hcount
  simp [openCalls, hret, hreturn] at hcount

/-- Events with their open calls, the latest first: what lies behind each of them is balanced. -/
inductive Pending : List Event → List Event → Prop
  | balanced {events : List Event} (h : Balanced events) : Pending events []
  | call {earlier inner calls : List Event} {call : Event} (hearlier : Pending earlier calls)
      (hcall : call.isCall = true) (hinner : Balanced inner) :
    Pending (earlier ++ call :: inner) (call :: calls)

/-- Balanced events leave the open calls as they are. -/
theorem Pending.append_balanced {events calls later : List Event} (h : Pending events calls)
    (hlater : Balanced later) : Pending (events ++ later) calls := by
  cases h with
  | balanced h => exact .balanced (h.append hlater)
  | call hearlier hcall hinner =>
    rw [List.append_assoc, List.cons_append]
    exact .call hearlier hcall (hinner.append hlater)

/-! ## Histories -/

namespace History

/-- Balanced events leave the places to come back to as they were. -/
theorem returns_of_balanced (hnumbered : program.WellNumbered) {s s' : State}
    {events : List Event} (hbalanced : Balanced events)
    (h : History program scope s events s') : s'.returns = s.returns := by
  induction hbalanced generalizing s s' with
  | nil =>
    generalize hempty : ([] : List Event) = trace at h
    cases h with
    | refl => rfl
    | snoc => simp at hempty
  | @other event rest hcall hreturn _ ih =>
    rcases h.exists_of_cons with ⟨m, hfirst, hrest⟩
    rw [ih hrest, hfirst.returns_of_other hcall hreturn]
  | @call call ret inner rest hcall _ hreturn _ ihinner ihrest =>
    rcases h.exists_of_cons with ⟨m, hfirst, hmore⟩
    rcases exists_of_append hmore with ⟨m', hinner, hmore⟩
    rcases hmore.exists_of_cons with ⟨m'', hlast, hrest⟩
    rcases hlast.returns_of_isReturn hreturn with ⟨i, hi, -⟩
    have hpushed := hfirst.returns_of_isCall hnumbered hcall
    rw [ihinner hinner, hpushed] at hi
    rw [ihrest hrest]
    exact (List.cons.inj hi).2.symm

/-- Events close a call that was open before them, or have open calls of their own, which are
remembered in front of what was remembered before. -/
theorem closes_or_pending (hnumbered : program.WellNumbered) {s s' : State} {events : List Event}
    (h : History program scope s events s') :
    (∃ body ret later, events = body ++ ret :: later ∧ ret.isReturn = true ∧ Balanced body) ∨
      ∃ calls, Pending events calls ∧
        s'.returns = calls.map (fun call => call.index + 1) ++ s.returns := by
  induction h with
  | refl => exact .inr ⟨[], .balanced .nil, rfl⟩
  | @snoc events event m m' hearlier hlast ih =>
    rcases ih with ⟨body, ret, later, rfl, hreturn, hbody⟩ | ⟨calls, hpending, hreturns⟩
    · exact .inl ⟨body, ret, later ++ [event], by simp, hreturn, hbody⟩
    cases hcall : event.isCall with
    | true =>
      refine .inr ⟨event :: calls, .call hpending hcall .nil, ?_⟩
      rw [hlast.returns_of_isCall hnumbered hcall, hreturns]
      rfl
    | false =>
      cases hreturn : event.isReturn with
      | false =>
        refine .inr ⟨calls, hpending.append_balanced (.other hcall hreturn .nil), ?_⟩
        rw [hlast.returns_of_other hcall hreturn, hreturns]
      | true =>
        rcases hlast.returns_of_isReturn hreturn with ⟨i, hi, -⟩
        cases hpending with
        | balanced hbalanced => exact .inl ⟨events, event, [], rfl, hreturn, hbalanced⟩
        | @call front inner rest call hfront hopen hinner =>
          refine .inr ⟨rest, ?_, ?_⟩
          · rw [List.append_assoc, List.cons_append]
            exact hfront.append_balanced (.closed hopen hinner hreturn)
          · rw [hreturns] at hi
            exact (List.cons.inj hi).2.symm

section Start

variable {s₀ s : State} {trace : List Event}

/-- The places to come back to are those behind the calls that are open. -/
theorem exists_pending (hnumbered : program.WellNumbered) (hstart : s₀.returns = [])
    (h : History program scope s₀ trace s) :
    ∃ calls, Pending trace calls ∧ s.returns = calls.map fun call => call.index + 1 := by
  rcases h.closes_or_pending hnumbered with
    ⟨body, ret, later, rfl, hreturn, hbody⟩ | ⟨calls, hpending, hreturns⟩
  · -- the first return without a call would have had nowhere to go
    rcases h.exists_of_append with ⟨m, hbefore, hafter⟩
    rcases hafter.exists_of_cons with ⟨m', hlast, -⟩
    rcases hlast.returns_of_isReturn hreturn with ⟨i, hi, -⟩
    rw [hbefore.returns_of_balanced hnumbered hbody, hstart] at hi
    cases hi
  · rw [hstart, List.append_nil] at hreturns
    exact ⟨calls, hpending, hreturns⟩

/-- There is nowhere to come back to if and only if no call is open. -/
theorem returns_eq_nil_iff (hnumbered : program.WellNumbered) (hstart : s₀.returns = [])
    (h : History program scope s₀ trace s) : s.returns = [] ↔ ¬ HasOpenCall trace := by
  constructor
  · rintro hnil ⟨earlier, call, inner, rfl, hcall, hopen⟩
    rcases h.exists_of_append with ⟨m, -, hafter⟩
    rcases hafter.exists_of_cons with ⟨m', hfirst, hinner⟩
    rcases hinner.closes_or_pending hnumbered with
      ⟨body, ret, later, rfl, hreturn, hbody⟩ | ⟨calls, -, hreturns⟩
    · exact hopen body ret later rfl hreturn hbody
    · rw [hnil, hfirst.returns_of_isCall hnumbered hcall] at hreturns
      simp at hreturns
  · intro hnone
    rcases h.exists_pending hnumbered hstart with ⟨calls, hpending, hreturns⟩
    cases hpending with
    | balanced _ => exact hreturns
    | @call earlier inner rest call hearlier hcall hinner =>
      refine absurd ⟨earlier, call, inner, rfl, hcall, ?_⟩ hnone
      intro body ret later hsplit hreturn
      exact hinner.not_closing hsplit hreturn

/-- A return goes to the place behind the call that it closes. -/
theorem next_of_return (hnumbered : program.WellNumbered) {earlier inner : List Event}
    {call ret : Event} (h : History program scope s₀ (earlier ++ call :: (inner ++ [ret])) s)
    (hcall : call.isCall = true) (hinner : Balanced inner) (hreturn : ret.isReturn = true) :
    s.next = some (call.index + 1) := by
  rcases h.exists_of_append with ⟨m, -, hafter⟩
  rcases hafter.exists_of_cons with ⟨m', hfirst, hmore⟩
  rcases hmore.exists_of_append with ⟨m'', hbody, hlast⟩
  rcases hlast.advance_of_singleton.returns_of_isReturn hreturn with ⟨i, hi, hnext⟩
  rw [hbody.returns_of_balanced hnumbered hinner,
    hfirst.returns_of_isCall hnumbered hcall] at hi
  rw [hnext, (List.cons.inj hi).1]

/-- A return that succeeds closes a call. -/
theorem exists_call_of_return (hnumbered : program.WellNumbered) (hstart : s₀.returns = [])
    {ret : Event} (h : History program scope s₀ (trace ++ [ret]) s)
    (hreturn : ret.isReturn = true) :
    ∃ earlier call inner, trace = earlier ++ call :: inner ∧ call.isCall = true ∧
      Balanced inner := by
  rcases h.exists_of_append with ⟨m, hbefore, hlast⟩
  rcases hlast.advance_of_singleton.returns_of_isReturn hreturn with ⟨i, hi, -⟩
  rcases hbefore.exists_pending hnumbered hstart with ⟨calls, hpending, hreturns⟩
  cases hpending with
  | balanced _ =>
    rw [hreturns] at hi
    cases hi
  | @call earlier inner rest call hearlier hcall hinner =>
    exact ⟨earlier, call, inner, rfl, hcall, hinner⟩

end Start

end History

end Machine

end LineBasic
