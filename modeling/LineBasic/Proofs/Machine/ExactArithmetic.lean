import LineBasic.Proofs.Check.Names
import LineBasic.Proofs.FirstPlace
import LineBasic.Proofs.Machine.Execution

/-!
# Exact arithmetic

The machine computes with sixteen-bit numbers, but never with wrong ones.  Either an expression
has the value that it has on all integers, or the machine reports the first operation, operands
before operations and left ones before right ones, that has no result in sixteen bits.

Main definitions:

- `Expr.exactValue`: the value of an expression on all integers.
- `Expr.postorder`: the parts of an expression in the order in which they are computed.
- `Expr.Offends`: an operation without a result in sixteen bits.
- `Expr.IsExact`: all operations have results in sixteen bits.

Main results:

- `evalNumber_exact_or_offends`: the value of an expression is exact, or its first offence is
  reported.
- `Expr.IsNumeric.eval_eq_ok_iff` and `Expr.IsNumeric.eval_eq_error_iff`: which of them it is.
-/

namespace LineBasic

open Machine

variable {val : String → Int} {store : Store} {e : Expr}

/-! ## Values on all integers -/

/-- A number of sixteen bits, the sign among them. -/
def IsWord (x : Int) : Prop :=
  -32768 ≤ x ∧ x ≤ 32767

/-- Sixteen-bit numbers are what they are called. -/
theorem isWord_toInt (n : Int16) : IsWord n.toInt := by
  have hlow := n.le_toInt
  have hhigh := n.toInt_lt
  exact ⟨by omega, by omega⟩

/-- The value of an expression on all integers, for given values of its variables.  Divisions cut
off toward zero. -/
def Expr.exactValue (val : String → Int) : Expr → Int
  | number n => n.toInt
  | text _ => 0
  | name x => val x
  | binary op lhs rhs => Machine.exact op (lhs.exactValue val) (rhs.exactValue val)

/-- The parts of an expression, itself among them: operands stand in front of their operation, and
left ones in front of right ones. -/
def Expr.postorder : Expr → List Expr
  | binary op lhs rhs => lhs.postorder ++ rhs.postorder ++ [binary op lhs rhs]
  | e => [e]

/-- An operation has no result in sixteen bits, if its operands have the exact ones. -/
inductive Expr.Offends (val : String → Int) : Expr → Fault → Prop
  | division {lhs rhs : Expr} (hzero : rhs.exactValue val = 0) :
    Offends val (.binary .div lhs rhs) .divisionByZero
  | range {op : ArithOp} {lhs rhs : Expr} (hdefined : ¬ (op = .div ∧ rhs.exactValue val = 0))
      (hout : ¬ IsWord ((Expr.binary op lhs rhs).exactValue val)) :
    Offends val (.binary op lhs rhs) .overflow

/-- All divisors are different from zero, and all parts have values of sixteen bits. -/
structure Expr.IsExact (val : String → Int) (e : Expr) : Prop where
  divisor_ne_zero : ∀ lhs rhs, .binary .div lhs rhs ∈ e.postorder → rhs.exactValue val ≠ 0
  isWord : ∀ part ∈ e.postorder, IsWord (part.exactValue val)

/-- The first operation without a result, and what is wrong with it. -/
def Expr.FirstOffence (val : String → Int) (e : Expr) (fault : Fault) : Prop :=
  ∃ before part, FirstAt (fun _ part => ∃ fault, part.Offends val fault) e.postorder before part ∧
    part.Offends val fault

/-! ## Expressions for numbers -/

/-- The number that a variable holds, and zero if it holds none. -/
def Machine.Store.number (store : Store) (x : String) : Int :=
  match store.get? x with
  | some (.integer n) => n.toInt
  | _ => 0

/-- Expressions without texts whose variables hold numbers. -/
def Expr.IsNumeric (store : Store) : Expr → Prop
  | number _ => True
  | text _ => False
  | name x => ∃ n, store.get? x = some (.integer n)
  | binary _ lhs rhs => lhs.IsNumeric store ∧ rhs.IsNumeric store

/-- A typed expression whose variables hold numbers is one for numbers. -/
theorem Expr.isNumeric_of_type {scope : Scope} (htype : e.type scope = .ok .integer)
    (hnames : ∀ x ∈ e.names, ∃ n, store.get? x = some (.integer n)) : e.IsNumeric store := by
  induction e with
  | number n => trivial
  | text content => cases htype
  | name x => exact hnames x (List.mem_singleton.2 rfl)
  | binary op lhs rhs ihl ihr =>
    rcases Expr.type_binary_eq_ok_iff.1 htype with ⟨-, hl, hr⟩
    rcases List.forall_mem_append.1 hnames with ⟨hlnames, hrnames⟩
    exact ⟨ihl hl hlnames, ihr hr hrnames⟩

/-- The parts of an expression for numbers are for numbers. -/
theorem Expr.IsNumeric.of_mem_postorder (h : e.IsNumeric store) {part : Expr}
    (hpart : part ∈ e.postorder) : part.IsNumeric store := by
  induction e with
  | binary op lhs rhs ihl ihr =>
    rcases List.mem_append.1 hpart with hoperands | hself
    · rcases List.mem_append.1 hoperands with hleft | hright
      · exact ihl h.1 hleft
      · exact ihr h.2 hright
    · rw [List.mem_singleton.1 hself]
      exact h
  | _ =>
    rw [List.mem_singleton.1 hpart]
    exact h

/-- The number of an operation comes from the numbers of its operands. -/
theorem evalNumber_binary (store : Store) (op : ArithOp) (lhs rhs : Expr) :
    evalNumber store (.binary op lhs rhs) =
      (evalNumber store lhs).bind fun l => (evalNumber store rhs).bind fun r =>
        apply op l r := by
  unfold evalNumber
  rw [eval]
  cases eval store lhs with
  | error fault => rfl
  | ok v =>
    cases v with
    | text content => rfl
    | integer l =>
      cases eval store rhs with
      | error fault => rfl
      | ok w =>
        cases w with
        | text content => rfl
        | integer r =>
          change ((apply op l r).bind fun n => .ok (.integer n)).bind eval.number = apply op l r
          cases apply op l r <;> rfl

/-- The value of an expression for numbers is the number that it has. -/
theorem Expr.IsNumeric.eval_eq_map_evalNumber (h : e.IsNumeric store) :
    eval store e = (evalNumber store e).map .integer := by
  induction e with
  | number n => rfl
  | text content => cases h
  | name x =>
    rcases h with ⟨n, hget⟩
    rw [evalNumber, eval, hget]
    rfl
  | binary op lhs rhs ihl ihr =>
    rw [evalNumber_binary, eval, ihl h.1, ihr h.2]
    cases evalNumber store lhs with
    | error fault => rfl
    | ok l =>
      cases evalNumber store rhs with
      | error fault => rfl
      | ok r =>
        change (apply op l r).bind (fun n => .ok (Value.integer n)) =
          (apply op l r).map Value.integer
        cases apply op l r <;> rfl

/-! ## Offences -/

/-- An expression for numbers offends nowhere exactly if all of it is exact. -/
theorem Expr.IsNumeric.nowhere_iff (h : e.IsNumeric store) :
    Nowhere (fun _ part => ∃ fault, part.Offends store.number fault) e.postorder ↔
      e.IsExact store.number := by
  constructor
  · intro hnowhere
    have hclean {part : Expr} {fault : Fault} (hpart : part ∈ e.postorder) :
        ¬ part.Offends store.number fault := by
      intro hoffends
      rcases List.append_of_mem hpart with ⟨before, behind, heq⟩
      exact hnowhere before part behind heq ⟨fault, hoffends⟩
    have hdivisor (lhs rhs : Expr) (hpart : .binary .div lhs rhs ∈ e.postorder) :
        rhs.exactValue store.number ≠ 0 :=
      fun hzero => hclean hpart (.division hzero)
    refine ⟨hdivisor, fun part hpart => ?_⟩
    cases part with
    | number n => exact isWord_toInt n
    | text content => cases h.of_mem_postorder hpart
    | name x =>
      rcases h.of_mem_postorder hpart with ⟨n, hget⟩
      have hvalue : (Expr.name x).exactValue store.number = n.toInt := by
        simp only [exactValue, Store.number, hget]
      rw [hvalue]
      exact isWord_toInt n
    | binary op lhs rhs =>
      by_cases hword : IsWord ((Expr.binary op lhs rhs).exactValue store.number)
      · exact hword
      · refine absurd (.range ?_ hword) (hclean hpart)
        rintro ⟨rfl, hzero⟩
        exact hdivisor lhs rhs hpart hzero
  · intro hexact before part behind heq hoffends
    have hpart : part ∈ e.postorder := heq ▸ List.mem_append_right before List.mem_cons_self
    rcases hoffends with ⟨fault, hoffends⟩
    cases hoffends with
    | division hzero => exact hexact.divisor_ne_zero _ _ hpart hzero
    | range hdefined hout => exact hout (hexact.isWord _ hpart)

/-- An expression does not both have a first offence and none. -/
theorem Expr.FirstOffence.not_nowhere {fault : Fault} (h : e.FirstOffence val fault) :
    ¬ Nowhere (fun _ part => ∃ fault, part.Offends val fault) e.postorder := by
  rcases h with ⟨before, part, hfirst, -⟩
  exact hfirst.not_nowhere

/-- One thing is wrong with an operation. -/
theorem Expr.Offends.unique {fault fault' : Fault} (h : e.Offends val fault)
    (h' : e.Offends val fault') : fault = fault' := by
  cases h with
  | division hzero =>
    cases h' with
    | division => rfl
    | range hdefined => exact absurd ⟨rfl, hzero⟩ hdefined
  | range hdefined hout =>
    cases h' with
    | division hzero => exact absurd ⟨rfl, hzero⟩ hdefined
    | range => rfl

/-- There is one first offence. -/
theorem Expr.FirstOffence.unique {fault fault' : Fault} (h : e.FirstOffence val fault)
    (h' : e.FirstOffence val fault') : fault = fault' := by
  rcases h with ⟨before, part, hfirst, hoffends⟩
  rcases h' with ⟨before', part', hfirst', hoffends'⟩
  rcases hfirst.unique hfirst' with ⟨-, rfl⟩
  exact hoffends.unique hoffends'

/-! ## Operations of the machine -/

/-- An operation of the machine has the exact result, or it reports why it has none. -/
theorem apply_exact_or_offends (op : ArithOp) {lhs rhs : Expr} {l r : Int16}
    (hl : l.toInt = lhs.exactValue val) (hr : r.toInt = rhs.exactValue val) :
    (∃ n, apply op l r = .ok n ∧ n.toInt = (Expr.binary op lhs rhs).exactValue val ∧
        ∀ fault, ¬ (Expr.binary op lhs rhs).Offends val fault) ∨
      ∃ fault, apply op l r = .error fault ∧ (Expr.binary op lhs rhs).Offends val fault := by
  have hzero : r = 0 ↔ rhs.exactValue val = 0 := by
    rw [← hr, ← Int16.toInt_inj]
    rfl
  have hexact : Machine.exact op l.toInt r.toInt = (Expr.binary op lhs rhs).exactValue val := by
    rw [hl, hr, Expr.exactValue]
  unfold apply
  by_cases hdivision : op = .div ∧ r = 0
  · rw [if_pos hdivision]
    rcases hdivision with ⟨rfl, hr0⟩
    exact .inr ⟨_, rfl, .division (hzero.1 hr0)⟩
  · rw [if_neg hdivision, hexact]
    have hdefined : ¬ (op = .div ∧ rhs.exactValue val = 0) := by rwa [← hzero]
    by_cases hword : IsWord ((Expr.binary op lhs rhs).exactValue val)
    · have hn : number? ((Expr.binary op lhs rhs).exactValue val) = some _ := if_pos hword
      refine .inl ⟨_, by rw [hn], toInt_of_number?_eq_some hn, fun fault hoffends => ?_⟩
      cases hoffends with
      | division hz => exact hdefined ⟨rfl, hz⟩
      | range _ hout => exact hout hword
    · have hn : number? ((Expr.binary op lhs rhs).exactValue val) = none := if_neg hword
      exact .inr ⟨_, by rw [hn], .range hdefined hword⟩

/-- The number of an expression is exact and nothing offends, or the first offence is reported. -/
theorem evalNumber_exact_or_offends (h : e.IsNumeric store) :
    (∃ n, evalNumber store e = .ok n ∧ n.toInt = e.exactValue store.number ∧
        Nowhere (fun _ part => ∃ fault, part.Offends store.number fault) e.postorder) ∨
      ∃ fault, evalNumber store e = .error fault ∧ e.FirstOffence store.number fault := by
  induction e with
  | number n =>
    refine .inl ⟨n, rfl, rfl, nowhere_singleton_iff.2 ?_⟩
    rintro ⟨fault, hoffends⟩
    cases hoffends
  | text content => cases h
  | name x =>
    rcases h with ⟨n, hget⟩
    refine .inl ⟨n, ?_, ?_, nowhere_singleton_iff.2 ?_⟩
    · rw [evalNumber, eval, hget]
      rfl
    · simp only [Expr.exactValue, Store.number, hget]
    · rintro ⟨fault, hoffends⟩
      cases hoffends
  | binary op lhs rhs ihl ihr =>
    rw [evalNumber_binary, Expr.postorder]
    -- an offence on the left comes first, then one on the right, and the operation's own last
    rcases ihl h.1 with ⟨l, hl, hlexact, hlclean⟩ | ⟨fault, hl, before, part, hfirst, hoffends⟩
    · rcases ihr h.2 with ⟨r, hr, hrexact, hrclean⟩ | ⟨fault, hr, before, part, hfirst, hoffends⟩
      · have hclean := nowhere_append_iff.2 ⟨hlclean, hrclean⟩
        rw [hl, hr]
        rcases apply_exact_or_offends op hlexact hrexact with
          ⟨n, hn, hexact, hnone⟩ | ⟨fault, hn, hoffends⟩
        · exact .inl ⟨n, hn, hexact, nowhere_snoc_iff.2 ⟨hclean, fun ⟨fault, hoffends⟩ =>
            hnone fault hoffends⟩⟩
        · exact .inr ⟨fault, hn, _, _, ⟨⟨[], rfl⟩, ⟨fault, hoffends⟩, hclean⟩, hoffends⟩
      · rw [hl, hr]
        exact .inr ⟨fault, rfl, _, part, (hfirst.behind hlclean).of_append, hoffends⟩
    · rw [hl]
      exact .inr ⟨fault, rfl, before, part, hfirst.of_append.of_append, hoffends⟩

/-! ## Values and faults -/

/-- An expression for numbers has a value exactly if all of it is exact, and then the exact one. -/
theorem Expr.IsNumeric.eval_eq_ok_iff (h : e.IsNumeric store) {v : Value} :
    eval store e = .ok v ↔ e.IsExact store.number ∧
      ∃ n, v = .integer n ∧ n.toInt = e.exactValue store.number := by
  rw [h.eval_eq_map_evalNumber]
  rcases evalNumber_exact_or_offends h with ⟨n, hn, hexact, hclean⟩ | ⟨fault, hn, hfirst⟩
  · rw [hn]
    constructor
    · intro hvalue
      cases hvalue
      exact ⟨h.nowhere_iff.1 hclean, n, rfl, hexact⟩
    · rintro ⟨-, m, rfl, hm⟩
      rw [← hexact, Int16.toInt_inj] at hm
      rw [hm]
      rfl
  · rw [hn]
    constructor
    · intro hvalue
      cases hvalue
    · rintro ⟨hexact, -⟩
      exact absurd (h.nowhere_iff.2 hexact) hfirst.not_nowhere

/-- Otherwise it has the fault of its first offence. -/
theorem Expr.IsNumeric.eval_eq_error_iff (h : e.IsNumeric store) {fault : Fault} :
    eval store e = .error fault ↔ e.FirstOffence store.number fault := by
  rw [h.eval_eq_map_evalNumber]
  rcases evalNumber_exact_or_offends h with ⟨n, hn, -, hclean⟩ | ⟨fault', hn, hfirst⟩
  · rw [hn]
    constructor
    · intro hfault
      cases hfault
    · intro hfirst
      exact absurd hclean hfirst.not_nowhere
  · rw [hn]
    constructor
    · intro hfault
      cases hfault
      exact hfirst
    · intro hfirst'
      rw [hfirst.unique hfirst']
      rfl

end LineBasic
