import LineBasic.Proofs.Check.Typing
import LineBasic.Proofs.FirstPlace
import Mathlib.Data.List.Induction

/-!
# What a program asks of its names and types

Read from its first line to its last, a program makes demands: that a name is new, that a name is
declared, that operands are numbers, that two types agree.  A demand can rely on the declarations
in front of it only.  A program is well typed if all of its demands are met, and the checker
reports the first one that is not.

Main definitions:

- `Expr.HasType`: the types of expressions among declared names.
- `Expr.demands` and `Stmt.demands`: the demands in the order of the text.
- `Program.WellTyped`: all demands of a program are met.
- `Program.FirstTypeError`: the error for the first demand that is not.
- `Judges`: a check that succeeds or fails by a list of demands.

Main results:

- `Stmt.declaredBy_demands`: a statement makes known what it declares.
- `nowhere_isUnmet_append_iff`: demands one after the other.
- `FirstFault.unique`: among distinct names, demands have one first fault at most.
- `Judges.bind`: checks one after the other judge demands one after the other.
-/

namespace LineBasic

/-! ## Types and demands -/

/-- The types of expressions, where the symbols in `known` are declared. -/
inductive Expr.HasType (known : List Symbol) : Expr → SymbolType → Prop where
  | number (n : Int16) : HasType known (.number n) .integer
  | text (content : String) : HasType known (.text content) .string
  | name {x type} : ⟨upper x, type⟩ ∈ known → HasType known (.name x) type
  | binary {op lhs rhs} : HasType known lhs .integer → HasType known rhs .integer →
      HasType known (.binary op lhs rhs) .integer

/-- What is demanded at a place of a program. -/
inductive Demand where
  /-- A declared name is new. -/
  | fresh (type : DeclaredType) (name : String)
  /-- A name that is used is declared. -/
  | declared (name : String)
  /-- Both operands of an operation are numbers. -/
  | operands (lhs rhs : Expr)
  /-- A value has the type of the variable it is assigned to. -/
  | assignable (name : String) (value : Expr)
  /-- Both sides of a condition have one type. -/
  | comparable (lhs rhs : Expr)
deriving DecidableEq, Repr

/-- The demands of an expression, those of its operands first. -/
def Expr.demands : Expr → List Demand
  | number _ => []
  | text _ => []
  | name x => [.declared x]
  | binary _ lhs rhs => lhs.demands ++ rhs.demands ++ [.operands lhs rhs]

/-- The demands of a statement from left to right.  A variable comes before its value, and the
sides of a condition before the statement behind it. -/
def Stmt.demands : Stmt → List Demand
  | declare type names => names.map (.fresh type)
  | assign name value => .declared name :: value.demands ++ [.assignable name value]
  | input name => [.declared name]
  | print items => items.flatMap Expr.demands
  | cond lhs _ rhs body => lhs.demands ++ rhs.demands ++ [.comparable lhs rhs] ++ body.demands
  | goto _ => []
  | gosub _ => []
  | ret => []
  | stop => []

/-- The demands of lines in their order. -/
def demands (lines : List Line) : List Demand :=
  lines.flatMap fun line => line.stmt.demands

/-- The symbol that is known from a demand on. -/
def Demand.symbol? : Demand → Option Symbol
  | fresh type x => some ⟨upper x, type.symbolType⟩
  | _ => none

/-- The symbols that are known behind demands. -/
def declaredBy (ds : List Demand) : List Symbol :=
  ds.filterMap Demand.symbol?

/-- A demand is met where the symbols in `known` are declared. -/
def Demand.Met (known : List Symbol) : Demand → Prop
  | fresh _ x => upper x ∉ known.map Symbol.name
  | declared x => upper x ∈ known.map Symbol.name
  | operands lhs rhs => lhs.HasType known .integer ∧ rhs.HasType known .integer
  | assignable x value => ∃ type, (Expr.name x).HasType known type ∧ value.HasType known type
  | comparable lhs rhs => ∃ type, lhs.HasType known type ∧ rhs.HasType known type

/-- The fault of a demand that is not met. -/
inductive Demand.Fails (known : List Symbol) : Demand → TypeFault → Prop where
  | redeclared {type x} : upper x ∈ known.map Symbol.name →
      Fails known (.fresh type x) (.redeclared x)
  | undeclared {x} : upper x ∉ known.map Symbol.name → Fails known (.declared x) (.undeclared x)
  | invalidOperands {lhs rhs l r} : lhs.HasType known l → rhs.HasType known r →
      ¬ (l = .integer ∧ r = .integer) → Fails known (.operands lhs rhs) (.invalidOperands l r)
  | assignMismatch {x value expected found} : (Expr.name x).HasType known expected →
      value.HasType known found → expected ≠ found →
      Fails known (.assignable x value) (.assignMismatch x expected found)
  | compareMismatch {lhs rhs l r} : lhs.HasType known l → rhs.HasType known r → l ≠ r →
      Fails known (.comparable lhs rhs) (.compareMismatch l r)

/-- A demand is not met behind the demands in front of it. -/
def IsUnmet (known : List Symbol) (before : List Demand) (d : Demand) : Prop :=
  ¬ d.Met (known ++ declaredBy before)

/-- All demands of a program are met by the declarations in front of them. -/
def Program.WellTyped (program : Program) : Prop :=
  Nowhere (IsUnmet []) (demands program.lines)

/-- The fault of the first demand that is not met. -/
inductive FirstFault (known : List Symbol) (ds : List Demand) : TypeFault → Prop where
  | mk {before d fault} : FirstAt (IsUnmet known) ds before d →
      d.Fails (known ++ declaredBy before) fault → FirstFault known ds fault

/-- The error in the first line behind which the program is not well typed any more: it is the
first fault in the statement of this line. -/
inductive Program.FirstTypeError (program : Program) : TypeError → Prop where
  | mk {before line fault} :
      FirstAt (fun before line => ¬ (Program.mk (before ++ [line])).WellTyped) program.lines
        before line →
      FirstFault (declarations before) line.stmt.demands fault →
      FirstTypeError program ⟨line.number, fault⟩

/-! ## Demands one after the other -/

@[simp] theorem declaredBy_nil : declaredBy [] = [] := rfl

@[simp] theorem declaredBy_append (xs ys : List Demand) :
    declaredBy (xs ++ ys) = declaredBy xs ++ declaredBy ys :=
  List.filterMap_append

@[simp] theorem declaredBy_cons (d : Demand) (ds : List Demand) :
    declaredBy (d :: ds) = d.symbol?.toList ++ declaredBy ds := by
  rw [declaredBy, List.filterMap_cons]
  cases d.symbol? <;> rfl

/-- An expression declares nothing. -/
@[simp] theorem Expr.declaredBy_demands (e : Expr) : declaredBy e.demands = [] := by
  induction e with
  | binary op lhs rhs ihl ihr => simp [Expr.demands, ihl, ihr, Demand.symbol?]
  | name x => simp [Expr.demands, Demand.symbol?]
  | _ => rfl

/-- The demands of a statement make known what it declares. -/
@[simp] theorem Stmt.declaredBy_demands (s : Stmt) : declaredBy s.demands = s.declarations := by
  induction s with
  | declare type names =>
    simp [Stmt.demands, Stmt.declarations, declaredBy, Demand.symbol?, Function.comp_def]
  | assign name value => simp [Stmt.demands, Stmt.declarations, Demand.symbol?]
  | input name => simp [Stmt.demands, Stmt.declarations, Demand.symbol?]
  | print items =>
    simp only [Stmt.demands, Stmt.declarations]
    induction items with
    | nil => rfl
    | cons e rest ih => rw [List.flatMap_cons, declaredBy_append, ih, e.declaredBy_demands]; rfl
  | cond lhs op rhs body ih => simp [Stmt.demands, Stmt.declarations, Demand.symbol?, ih]
  | _ => rfl

/-- The demands of lines make known what they declare. -/
@[simp] theorem declaredBy_demands (lines : List Line) :
    declaredBy (demands lines) = declarations lines := by
  induction lines with
  | nil => rfl
  | cons line rest ih =>
    rw [demands, List.flatMap_cons, declaredBy_append, Stmt.declaredBy_demands]
    exact congrArg (line.stmt.declarations ++ ·) ih

/-- Behind demands, what they declare is known. -/
theorem isUnmet_append (known : List Symbol) (ds : List Demand) :
    (fun before => IsUnmet known (ds ++ before)) = IsUnmet (known ++ declaredBy ds) := by
  funext before d
  rw [IsUnmet, IsUnmet, declaredBy_append, List.append_assoc]

/-- A single demand is met where it stands. -/
theorem nowhere_isUnmet_singleton_iff {known : List Symbol} {d : Demand} :
    Nowhere (IsUnmet known) [d] ↔ d.Met known := by
  rw [nowhere_singleton_iff, IsUnmet, declaredBy_nil, List.append_nil, Classical.not_not]

/-- Demands are met behind demands that are met. -/
theorem nowhere_isUnmet_append_iff {known : List Symbol} {xs ys : List Demand} :
    Nowhere (IsUnmet known) (xs ++ ys) ↔
      Nowhere (IsUnmet known) xs ∧ Nowhere (IsUnmet (known ++ declaredBy xs)) ys := by
  rw [nowhere_append_iff, isUnmet_append]

namespace FirstFault

variable {known : List Symbol} {xs ys : List Demand} {fault : TypeFault}

/-- A first fault stays the first one if more demands follow. -/
theorem of_append (h : FirstFault known xs fault) : FirstFault known (xs ++ ys) fault := by
  cases h with
  | mk hfirst hfails => exact .mk hfirst.of_append hfails

/-- The first fault behind demands that are met. -/
theorem behind (hxs : Nowhere (IsUnmet known) xs)
    (h : FirstFault (known ++ declaredBy xs) ys fault) : FirstFault known (xs ++ ys) fault := by
  cases h with
  | mk hfirst hfails =>
    rw [← isUnmet_append] at hfirst
    refine .mk (.behind hxs hfirst) ?_
    rwa [declaredBy_append, ← List.append_assoc]

/-- Where there is a fault, not all demands are met. -/
theorem not_nowhere (h : FirstFault known xs fault) : ¬ Nowhere (IsUnmet known) xs := by
  cases h with
  | mk hfirst => exact hfirst.not_nowhere

end FirstFault

/-! ## One type for an expression -/

section Unique

variable {known : List Symbol}

/-- Among distinct names an expression has one type at most. -/
theorem Expr.HasType.unique (hnodup : (known.map Symbol.name).Nodup) {e : Expr}
    {type type' : SymbolType} (h : e.HasType known type) (h' : e.HasType known type') :
    type = type' := by
  cases h with
  | number => cases h'; rfl
  | text => cases h'; rfl
  | name hmem =>
    cases h' with
    | name hmem' => exact congrArg Symbol.type (Scope.eq_of_name_eq hnodup hmem hmem' rfl)
  | binary => cases h'; rfl

/-- A demand with a fault is not met. -/
theorem Demand.Fails.not_met (hnodup : (known.map Symbol.name).Nodup) {d : Demand}
    {fault : TypeFault} (h : d.Fails known fault) : ¬ d.Met known := by
  cases h with
  | redeclared hmem => exact fun hnew => hnew hmem
  | undeclared hnot => exact hnot
  | invalidOperands hl hr hne =>
    rintro ⟨hl', hr'⟩
    exact hne ⟨hl.unique hnodup hl', hr.unique hnodup hr'⟩
  | assignMismatch hx hvalue hne =>
    rintro ⟨type, hx', hvalue'⟩
    exact hne ((hx.unique hnodup hx').trans (hvalue'.unique hnodup hvalue))
  | compareMismatch hl hr hne =>
    rintro ⟨type, hl', hr'⟩
    exact hne ((hl.unique hnodup hl').trans (hr'.unique hnodup hr))

/-- A demand has one fault at most. -/
theorem Demand.Fails.unique (hnodup : (known.map Symbol.name).Nodup) {d : Demand}
    {fault fault' : TypeFault} (h : d.Fails known fault) (h' : d.Fails known fault') :
    fault = fault' := by
  cases h with
  | redeclared => cases h'; rfl
  | undeclared => cases h'; rfl
  | invalidOperands hl hr =>
    cases h' with
    | invalidOperands hl' hr' => rw [hl.unique hnodup hl', hr.unique hnodup hr']
  | assignMismatch hx hvalue =>
    cases h' with
    | assignMismatch hx' hvalue' => rw [hx.unique hnodup hx', hvalue.unique hnodup hvalue']
  | compareMismatch hl hr =>
    cases h' with
    | compareMismatch hl' hr' => rw [hl.unique hnodup hl', hr.unique hnodup hr']

/-- Demands that are met declare distinct names. -/
theorem nodup_of_nowhere (hnodup : (known.map Symbol.name).Nodup) {ds : List Demand}
    (h : Nowhere (IsUnmet known) ds) : ((known ++ declaredBy ds).map Symbol.name).Nodup := by
  induction ds using List.reverseRecOn with
  | nil => simpa using hnodup
  | append_singleton front d ih =>
    rcases nowhere_isUnmet_append_iff.1 h with ⟨hfront, hlast⟩
    have hmet := nowhere_isUnmet_singleton_iff.1 hlast
    cases d with
    | fresh type x =>
      rw [declaredBy_append, ← List.append_assoc, List.map_append, List.nodup_append]
      refine ⟨ih hfront, by simp [Demand.symbol?], ?_⟩
      intro a ha b hb heq
      have hb' : b = upper x := by simpa [Demand.symbol?] using hb
      subst hb'
      exact hmet (heq ▸ ha)
    | _ => simpa [Demand.symbol?] using ih hfront

/-- Demands have one first fault at most. -/
theorem FirstFault.unique (hnodup : (known.map Symbol.name).Nodup) {ds : List Demand}
    {fault fault' : TypeFault} (h : FirstFault known ds fault)
    (h' : FirstFault known ds fault') : fault = fault' := by
  cases h with
  | mk hfirst hfails =>
    cases h' with
    | mk hfirst' hfails' =>
      rcases hfirst.unique hfirst' with ⟨rfl, rfl⟩
      exact hfails.unique (nodup_of_nowhere hnodup hfirst.nowhere) hfails'

end Unique

/-! ## Judgements -/

/-- A check judges demands: it succeeds if all of them are met, and fails with the first fault
otherwise. -/
inductive Judges {α : Type} (known : List Symbol) (ds : List Demand) :
    Except TypeFault α → Prop where
  | ok {a} : Nowhere (IsUnmet known) ds → Judges known ds (.ok a)
  | error {fault} : FirstFault known ds fault → Judges known ds (.error fault)

namespace Judges

variable {α β : Type} {known : List Symbol}

/-- Where nothing is demanded, checks succeed. -/
theorem nil {a : α} : Judges known [] (.ok a) :=
  .ok nowhere_nil

/-- Behind a demand that is met, a check goes by the demands that follow. -/
theorem step {d : Demand} {ds : List Demand} {x : Except TypeFault α} (h : d.Met known)
    (hx : Judges (known ++ declaredBy [d]) ds x) : Judges known (d :: ds) x := by
  have hone := nowhere_isUnmet_singleton_iff.2 h
  have hsplit : d :: ds = [d] ++ ds := rfl
  rw [hsplit]
  cases hx with
  | ok hrest => exact .ok (nowhere_isUnmet_append_iff.2 ⟨hone, hrest⟩)
  | error hfault => exact .error (hfault.behind hone)

/-- At a demand that is not met, a check stops with its fault. -/
theorem stop (hnodup : (known.map Symbol.name).Nodup) {d : Demand} {ds : List Demand}
    {fault : TypeFault} (h : d.Fails known fault) :
    Judges (α := α) known (d :: ds) (.error fault) := by
  have hunmet : IsUnmet known [] d := by simpa [IsUnmet] using h.not_met hnodup
  have hfirst : FirstAt (IsUnmet known) (d :: ds) [] d := ⟨⟨ds, rfl⟩, hunmet, nowhere_nil⟩
  exact .error (.mk hfirst (by simpa using h))

/-- A check that goes on with another one judges the demands of both. -/
theorem bind {xs ys : List Demand} {x : Except TypeFault α} {f : α → Except TypeFault β}
    (hx : Judges known xs x)
    (hf : ∀ a, x = .ok a → Judges (known ++ declaredBy xs) ys (f a)) :
    Judges known (xs ++ ys) (x >>= f) := by
  cases hx with
  | ok hmet =>
    rename_i a
    have hrest := hf a rfl
    change Judges known (xs ++ ys) (f a)
    generalize f a = result at hrest
    cases hrest with
    | ok hrest => exact .ok (nowhere_isUnmet_append_iff.2 ⟨hmet, hrest⟩)
    | error hfault => exact .error (hfault.behind hmet)
  | error hfault => exact .error hfault.of_append

end Judges

end LineBasic
