import LineBasic.Proofs.Check.Typing
import LineBasic.Proofs.FirstOccurrences
import Mathlib.Data.List.Forall2

/-!
# Scopes and their history

Names get types, levels are put inside others and left again.  What a scope holds after such
steps is told here from the steps alone: from the definitions that were made in each of its
levels, in the order in which they were made.

Main definitions:

- `ScopeStep` and `Scope.performAll`: steps on scopes.
- `stepLevels` and `runLevels`: the steps on a chain of levels of any form.
- `ledger`: the definitions made in each level.
- `Frame.Lists`: the symbols that definitions leave in a level.
- `levelsInside?`: whether steps stay inside a scope, and how deep they end.

Main results:

- `forall₂_runLevels`: chains that are related level by level stay so.
- `runLevels_inside`: steps that stay inside a scope leave its levels as they are.
- `Scope.lists_levels`: every level lists what was defined in it.
- `Scope.resolve?_performAll`: a name means what it was last given in the innermost level that
  defines it.
-/

namespace LineBasic

/-! ## Steps on chains of levels -/

/-- What is done to a scope: a name gets a type in the innermost level, a new level is put inside,
or the innermost level is left. -/
inductive ScopeStep where
  | define (name : String) (type : SymbolType)
  | push (name : String)
  | pop
deriving DecidableEq, Repr

section Levels

variable {α β : Type} {define : α → String → SymbolType → α} {fresh : String → α}
  {define' : β → String → SymbolType → β} {fresh' : String → β}

/-- A step on a chain of levels, the innermost one first.  The levels may have any form: `define`
gives a name a type in one of them, and `fresh` is a new one.  The outermost level is not left. -/
def stepLevels (define : α → String → SymbolType → α) (fresh : String → α) (levels : List α) :
    ScopeStep → List α
  | .define name type => levels.modifyHead fun level => define level name type
  | .push name => fresh name :: levels
  | .pop =>
    match levels with
    | _ :: next :: outer => next :: outer
    | levels => levels

/-- Steps on a chain of levels, one after the other. -/
def runLevels (define : α → String → SymbolType → α) (fresh : String → α) (levels : List α)
    (steps : List ScopeStep) : List α :=
  steps.foldl (stepLevels define fresh) levels

/-- How many levels lie inside a scope after steps, if `depth` lay inside it before them.  There
is no answer if a step acts on the scope itself. -/
def levelsInside? : (depth : Nat) → List ScopeStep → Option Nat
  | depth, [] => some depth
  | depth, .push _ :: rest => levelsInside? (depth + 1) rest
  | depth + 1, .define _ _ :: rest => levelsInside? (depth + 1) rest
  | depth + 1, .pop :: rest => levelsInside? depth rest
  | 0, _ :: _ => none

/-- A level with others around it can be left. -/
theorem stepLevels_pop {level : α} {outer : List α} (h : outer ≠ []) :
    stepLevels define fresh (level :: outer) .pop = outer := by
  cases outer with
  | nil => exact absurd rfl h
  | cons next outer => rfl

/-- Two forms of levels that definitions keep related stay related in a step. -/
theorem forall₂_stepLevels {R : α → β → Prop}
    (hdefine : ∀ a b name type, R a b → R (define a name type) (define' b name type))
    (hfresh : ∀ name, R (fresh name) (fresh' name)) {as : List α} {bs : List β}
    (h : List.Forall₂ R as bs) (step : ScopeStep) :
    List.Forall₂ R (stepLevels define fresh as step) (stepLevels define' fresh' bs step) := by
  cases step with
  | define name type =>
    cases h with
    | nil => exact .nil
    | cons hab hrest => exact .cons (hdefine _ _ name type hab) hrest
  | push name => exact .cons (hfresh name) h
  | pop =>
    cases h with
    | nil => exact .nil
    | cons hab hrest =>
      cases hrest with
      | nil => exact .cons hab .nil
      | cons hnext houter => exact .cons hnext houter

/-- Two forms of levels that definitions keep related stay related in all steps. -/
theorem forall₂_runLevels {R : α → β → Prop}
    (hdefine : ∀ a b name type, R a b → R (define a name type) (define' b name type))
    (hfresh : ∀ name, R (fresh name) (fresh' name)) {as : List α} {bs : List β}
    (h : List.Forall₂ R as bs) (steps : List ScopeStep) :
    List.Forall₂ R (runLevels define fresh as steps) (runLevels define' fresh' bs steps) := by
  induction steps generalizing as bs with
  | nil => exact h
  | cons step rest ih => exact ih (forall₂_stepLevels hdefine hfresh h step)

/-- Steps that stay inside a scope leave the levels of the scope as they are. -/
theorem runLevels_inside {levels : List α} (hlevels : levels ≠ []) (inner : List α)
    {steps : List ScopeStep} {depth : Nat} (h : levelsInside? inner.length steps = some depth) :
    (runLevels define fresh (inner ++ levels) steps).drop depth = levels := by
  -- `inner` are the levels that lie inside the scope so far; no step goes behind them
  induction steps generalizing inner with
  | nil =>
    cases h
    exact List.drop_left
  | cons step rest ih =>
    cases step with
    | define name type =>
      cases inner with
      | nil => cases h
      | cons level inner => exact ih (define level name type :: inner) h
    | push name => exact ih (fresh name :: inner) h
    | pop =>
      cases inner with
      | nil => cases h
      | cons level inner =>
        have hpop : stepLevels define fresh (level :: (inner ++ levels)) .pop = inner ++ levels :=
          stepLevels_pop (List.append_ne_nil_of_right_ne_nil inner hlevels)
        have hrest := ih inner h
        rwa [← hpop] at hrest

/-- Steps that stay inside a scope can be followed by more of them. -/
theorem levelsInside?_append (depth : Nat) (steps more : List ScopeStep) :
    levelsInside? depth (steps ++ more) =
      (levelsInside? depth steps).bind fun between => levelsInside? between more := by
  induction steps generalizing depth with
  | nil => rfl
  | cons step rest ih =>
    cases step with
    | push name => exact ih (depth + 1)
    | define name type =>
      cases depth with
      | zero => rfl
      | succ depth => exact ih (depth + 1)
    | pop =>
      cases depth with
      | zero => rfl
      | succ depth => exact ih depth

/-- All levels inside a scope can be left. -/
theorem levelsInside?_pops (depth : Nat) :
    levelsInside? depth (List.replicate depth .pop) = some 0 := by
  induction depth with
  | zero => rfl
  | succ depth ih => exact ih

end Levels

/-! ## Steps on scopes -/

namespace Scope

/-- The levels of a scope, the innermost one first. -/
def levels (s : Scope) : List Frame := s.frame :: s.enclosing

/-- A step on a scope.  The outermost level is not left. -/
def perform (s : Scope) : ScopeStep → Scope
  | .define name type => s.define name type
  | .push name => s.nest name
  | .pop => s.outer?.getD s

/-- Steps on a scope, one after the other. -/
def performAll (s : Scope) (steps : List ScopeStep) : Scope :=
  steps.foldl perform s

/-- Scopes with the same levels are the same. -/
theorem eq_of_levels_eq {s t : Scope} (h : s.levels = t.levels) : s = t := by
  cases s
  cases t
  cases h
  rfl

/-- A step on a scope is one on its levels. -/
theorem levels_perform (s : Scope) (step : ScopeStep) :
    (s.perform step).levels =
      stepLevels Frame.define (fun name => ⟨name, []⟩) s.levels step := by
  cases step with
  | define name type => rfl
  | push name => rfl
  | pop => rcases s with ⟨frame, _ | ⟨next, outer⟩⟩ <;> rfl

/-- Steps on a scope are steps on its levels. -/
theorem levels_performAll (s : Scope) (steps : List ScopeStep) :
    (s.performAll steps).levels =
      runLevels Frame.define (fun name => ⟨name, []⟩) s.levels steps := by
  induction steps generalizing s with
  | nil => rfl
  | cons step rest ih =>
    have hrest := ih (s.perform step)
    rwa [levels_perform] at hrest

/-- Steps that stay inside a scope leave the scope around them as it is. -/
theorem drop_levels_performAll (s : Scope) {inside : List ScopeStep} {depth : Nat}
    (h : levelsInside? 0 inside = some depth) :
    (s.performAll inside).levels.drop depth = s.levels := by
  rw [levels_performAll]
  exact runLevels_inside (List.cons_ne_nil _ _) [] h

/-- A scope is found as it was when all levels inside it are left. -/
theorem performAll_pops (s : Scope) {inside : List ScopeStep} {depth : Nat}
    (h : levelsInside? 0 inside = some depth) :
    s.performAll (inside ++ List.replicate depth .pop) = s := by
  apply eq_of_levels_eq
  have hback : levelsInside? 0 (inside ++ List.replicate depth .pop) = some 0 := by
    rw [levelsInside?_append, h, Option.bind_some, levelsInside?_pops]
  exact s.drop_levels_performAll hback

end Scope

/-! ## Definitions made in one level -/

/-- The names that definitions are about, in capitals. -/
def capitalNames (made : List Symbol) : List String :=
  made.map fun d => upper d.name

/-- The type that the last definition of a capitalised name gives it. -/
def latestType? (made : List Symbol) (name : String) : Option SymbolType :=
  (made.reverse.find? fun d => upper d.name == name).map Symbol.type

theorem capitalNames_concat (made : List Symbol) (d : Symbol) :
    capitalNames (made ++ [d]) = capitalNames made ++ [upper d.name] :=
  List.map_append

/-- Only the name that a definition is about gets another type. -/
theorem latestType?_concat (made : List Symbol) (d : Symbol) (x : String) :
    latestType? (made ++ [d]) x = if upper d.name = x then some d.type else latestType? made x := by
  rw [latestType?, List.reverse_concat, List.find?_cons]
  by_cases h : upper d.name = x
  · rw [beq_iff_eq.2 h, if_pos h, Option.map_some]
  · rw [beq_false_of_ne h, if_neg h, latestType?]

/-- A name without a definition has no type. -/
theorem latestType?_eq_none_iff {made : List Symbol} {x : String} :
    latestType? made x = none ↔ x ∉ capitalNames made := by
  simp [latestType?, capitalNames]

namespace Frame

/-- The names in a level. -/
def names (f : Frame) : List String :=
  f.symbols.map Symbol.name

/-- A level after definitions: it has each capitalised name that they are about once, in the order
of the first definitions, with the type of the last one. -/
structure Lists (f : Frame) (made : List Symbol) : Prop where
  names : FirstOccurrences f.names (capitalNames made)
  type_eq : ∀ s ∈ f.symbols, latestType? made s.name = some s.type

/-- A name that is there keeps its place, and a new one goes behind the others. -/
theorem names_define (f : Frame) (name : String) (type : SymbolType) :
    (f.define name type).names =
      if upper name ∈ f.names then f.names else f.names ++ [upper name] := by
  rcases putSymbol_cases ⟨upper name, type⟩ f.symbols with
    ⟨hnew, hput⟩ | ⟨before, t, behind, hsymbols, ht, hput⟩
  · have hnotThere : upper name ∉ f.names := hnew
    rw [if_neg hnotThere, names, define, hput, List.map_append, names]
    rfl
  · have hthere : upper name ∈ f.names := by
      rw [names, hsymbols]
      exact List.mem_map.2 ⟨t, List.mem_append_right _ List.mem_cons_self, ht⟩
    rw [if_pos hthere, names, define, hput, names, hsymbols, List.map_append, List.map_append,
      List.map_cons, List.map_cons, ht]

/-- In a level with distinct names, a definition leaves the symbols of other names only. -/
theorem eq_or_name_ne_of_mem_define {f : Frame} (h : f.names.Nodup) {name : String}
    {type : SymbolType} {s : Symbol} (hs : s ∈ (f.define name type).symbols) :
    s = ⟨upper name, type⟩ ∨ s ∈ f.symbols ∧ s.name ≠ upper name := by
  rw [define] at hs
  rcases putSymbol_cases ⟨upper name, type⟩ f.symbols with
    ⟨hnew, hput⟩ | ⟨before, t, behind, hsymbols, ht, hput⟩
  · rw [hput, List.mem_append, List.mem_singleton] at hs
    refine hs.symm.imp_right fun hold => ⟨hold, fun heq => hnew ?_⟩
    exact List.mem_map.2 ⟨s, hold, heq⟩
  · rw [names, hsymbols, List.map_append, List.map_cons, List.nodup_middle, ← List.map_append,
      List.nodup_cons, ht] at h
    have hother : s ∈ before ++ behind → s ∈ f.symbols ∧ s.name ≠ upper name := by
      intro hold
      refine ⟨?_, fun heq => h.1 (List.mem_map.2 ⟨s, hold, heq⟩)⟩
      rw [hsymbols]
      exact (List.sublist_cons_self t behind).append_left before |>.subset hold
    rw [hput, List.mem_append, List.mem_cons, or_left_comm, ← List.mem_append] at hs
    exact hs.imp_right hother

/-- A new level, in which nothing was defined yet. -/
theorem lists_nil (name : String) : (⟨name, []⟩ : Frame).Lists [] :=
  ⟨.nil, by simp⟩

/-- A definition in a level is one more of those that it lists. -/
theorem Lists.define {f : Frame} {made : List Symbol} (h : f.Lists made) (name : String)
    (type : SymbolType) : (f.define name type).Lists (made ++ [⟨name, type⟩]) := by
  refine ⟨?_, fun s hs => ?_⟩
  · rw [names_define, capitalNames_concat]
    exact h.names.concat (upper name)
  · rw [latestType?_concat]
    rcases eq_or_name_ne_of_mem_define h.names.nodup hs with rfl | ⟨hold, hne⟩
    · rw [if_pos rfl]
    · rw [if_neg hne.symm, h.type_eq s hold]

/-- A level is as long as there are names that were defined in it. -/
theorem Lists.length_eq {f : Frame} {made : List Symbol} (h : f.Lists made) :
    f.symbols.length = (capitalNames made).toFinset.card := by
  rw [← h.names.length_eq, Frame.names, List.length_map]

/-- A name is looked up in a level as it was last defined there. -/
theorem Lists.find?_eq {f : Frame} {made : List Symbol} (h : f.Lists made) (x : String) :
    f.find? x = (latestType? made x).map fun type => ⟨x, type⟩ := by
  unfold Frame.find?
  cases hfind : f.symbols.find? fun s => s.name == x with
  | none =>
    have hnone : x ∉ f.names := by
      rintro hx
      rcases List.mem_map.1 hx with ⟨s, hs, rfl⟩
      simpa using List.find?_eq_none.1 hfind s hs
    rw [h.names.mem_iff, ← latestType?_eq_none_iff] at hnone
    rw [hnone, Option.map_none]
  | some s =>
    have hname : s.name = x := by simpa using List.find?_some hfind
    have htype := h.type_eq s (List.mem_of_find?_eq_some hfind)
    rw [← hname, htype, Option.map_some]

end Frame

/-! ## Definitions made in all levels -/

/-- The definitions made in each level by steps from a scope without symbols, the innermost level
first. -/
def ledger (steps : List ScopeStep) : List (List Symbol) :=
  runLevels (fun made name type => made ++ [⟨name, type⟩]) (fun _ => []) [[]] steps

/-- The type that a capitalised name was last given in the innermost level that defines it. -/
def InnermostType (made : List (List Symbol)) (name : String) (type : SymbolType) : Prop :=
  ∃ inner level outer, made = inner ++ level :: outer ∧
    (∀ nearer ∈ inner, name ∉ capitalNames nearer) ∧ latestType? level name = some type

/-- Looking from the inside out for a level that defines a name. -/
theorem findSome?_latestType?_eq_some_iff {made : List (List Symbol)} {name : String}
    {type : SymbolType} :
    (made.findSome? fun level => latestType? level name) = some type ↔
      InnermostType made name type := by
  rw [List.findSome?_eq_some_iff, InnermostType]
  simp only [latestType?_eq_none_iff, and_comm]

/-- Looking for a name in levels that list definitions is looking among these definitions. -/
theorem findSome?_find?_eq {levels : List Frame} {made : List (List Symbol)}
    (h : List.Forall₂ Frame.Lists levels made) (x : String) :
    (levels.findSome? fun f => f.find? x) =
      (made.findSome? fun level => latestType? level x).map fun type => ⟨x, type⟩ := by
  induction h with
  | nil => rfl
  | @cons _ level _ _ hlevel _ ih =>
    rw [List.findSome?_cons, List.findSome?_cons, hlevel.find?_eq]
    cases latestType? level x with
    | none => exact ih
    | some type => rfl

namespace Scope

/-- Every level lists what was defined in it. -/
theorem lists_levels (outermost : String) (steps : List ScopeStep) :
    List.Forall₂ Frame.Lists ((Scope.empty outermost).performAll steps).levels (ledger steps) := by
  rw [levels_performAll, ledger]
  exact forall₂_runLevels (fun f made name type h => h.define name type) Frame.lists_nil
    (.cons (Frame.lists_nil outermost) .nil) steps

/-- A name is looked up as it was last defined in the innermost level that defines it. -/
theorem resolve?_performAll (outermost : String) (steps : List ScopeStep) (x : String) :
    ((Scope.empty outermost).performAll steps).resolve? x =
      ((ledger steps).findSome? fun level => latestType? level (upper x)).map
        fun type => ⟨upper x, type⟩ :=
  findSome?_find?_eq (lists_levels outermost steps) (upper x)

end Scope

end LineBasic
