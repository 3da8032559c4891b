import LineBasic.Proofs.Scope.Chain

/-!
# Levels with an index

A level can be stored as an array of symbols with an index, a map that leads from a name to its
place in the array.  A definition then changes the array in place, or it adds to both; a name is
looked up in the index of one level after the other.  Stored levels agree with the levels of a
scope after all steps.

Main definitions:

- `StoredFrame`: a level with an index.
- `StoredFrame.Stores`: a level with an index that is kept up to date.
- `storedLevels` and `resolveStored?`: stored levels after steps, and the symbol of a name there.

Main results:

- `StoredFrame.Stores.define`: a definition keeps the index up to date.
- `resolveStored?_eq`: names are looked up as in the scope.
- `Scope.levels_are_ordered_maps`: what scopes hold after steps.
-/

namespace LineBasic

/-- One level: its symbols in the order of their first definitions, and for each name the place of
its symbol among them. -/
structure StoredFrame where
  name : String
  symbols : Array Symbol := #[]
  index : Std.HashMap String Nat := ∅

namespace StoredFrame

/-- Give the capitalised name a type.  A name in the index keeps its place; the index never leads
behind the last symbol. -/
def define (t : StoredFrame) (name : String) (type : SymbolType) : StoredFrame :=
  match t.index[upper name]? with
  | some i => { t with symbols := t.symbols.setIfInBounds i ⟨upper name, type⟩ }
  | none =>
    { t with
      symbols := t.symbols.push ⟨upper name, type⟩
      index := t.index.insert (upper name) t.symbols.size }

/-- The stored level has the symbols of a level, and its index leads from each name to its place
and from nothing else. -/
structure Stores (t : StoredFrame) (f : Frame) : Prop where
  name_eq : t.name = f.name
  symbols_eq : t.symbols.toList = f.symbols
  index_iff : ∀ (x : String) (i : Nat), t.index[x]? = some i ↔ f.names[i]? = some x

end StoredFrame

/-- The symbol of a name, in any letter case: each level whose index does not have the name hands
it on to the next level outward. -/
def resolveStored? : List StoredFrame → String → Option Symbol
  | [], _ => none
  | t :: outer, name =>
    match t.index[upper name]? with
    | some i => t.symbols[i]?
    | none => resolveStored? outer (upper name)

/-- The stored levels after steps from a scope without symbols, the innermost one first. -/
def storedLevels (outermost : String) (steps : List ScopeStep) : List StoredFrame :=
  runLevels StoredFrame.define (fun name => { name }) [{ name := outermost }] steps

/-! ## The index -/

namespace StoredFrame

/-- A new level is stored without symbols. -/
theorem stores_nil (name : String) : ({ name } : StoredFrame).Stores ⟨name, []⟩ := by
  constructor <;> simp [Frame.names]

variable {t : StoredFrame} {f : Frame}

/-- The index leads to the places of names. -/
theorem Stores.indexesPlaces (h : t.Stores f) : IndexesPlaces t.index f.names :=
  h.index_iff

/-- A definition keeps the index up to date. -/
theorem Stores.define (h : t.Stores f) (name : String) (type : SymbolType) :
    (t.define name type).Stores (f.define name type) := by
  have hnames := f.names_define name type
  rcases putSymbol_cases ⟨upper name, type⟩ f.symbols with
    ⟨hnew, hput⟩ | ⟨before, s, behind, hsymbols, hs, hput⟩
  · have hnone : t.index[upper name]? = none := h.indexesPlaces.eq_none hnew
    have hsize : f.names.length = t.symbols.size := by
      rw [Frame.names, List.length_map, ← h.symbols_eq, Array.length_toList]
    have hnotThere : upper name ∉ f.names := hnew
    rw [if_neg hnotThere] at hnames
    rw [StoredFrame.define, hnone]
    refine ⟨h.name_eq, ?_, ?_⟩
    · rw [Array.toList_push, h.symbols_eq, Frame.define, hput]
    · rw [hnames, ← hsize]
      exact h.indexesPlaces.concat hnotThere
  · -- the names are distinct, so the index leads to the symbol that gives way
    have hplace : t.index[upper name]? = some before.length := by
      rw [h.index_iff, Frame.names, hsymbols, List.map_append, List.map_cons, hs]
      simp
    have hthere : upper name ∈ f.names := List.mem_of_getElem? ((h.index_iff _ _).1 hplace)
    rw [if_pos hthere] at hnames
    rw [StoredFrame.define, hplace]
    refine ⟨h.name_eq, ?_, fun x i => ?_⟩
    · rw [Array.toList_setIfInBounds, h.symbols_eq, Frame.define, hput, hsymbols]
      simp
    · rw [hnames]
      exact h.index_iff x i

/-- A symbol of the level is at the place to which the index leads. -/
theorem Stores.index_of_find? (h : t.Stores f) {x : String} {s : Symbol}
    (hfind : f.find? x = some s) : ∃ i, t.index[x]? = some i ∧ t.symbols[i]? = some s := by
  have hname : s.name = x := by simpa using List.find?_some hfind
  rcases List.mem_iff_getElem?.1 (List.mem_of_find?_eq_some hfind) with ⟨i, hi⟩
  refine ⟨i, ?_, ?_⟩
  · rw [h.index_iff, Frame.names, List.getElem?_map, hi, Option.map_some, hname]
  · rw [← Array.getElem?_toList, h.symbols_eq, hi]

/-- A name without a symbol in the level is not in the index. -/
theorem Stores.index_of_find?_eq_none (h : t.Stores f) {x : String}
    (hfind : f.find? x = none) : t.index[x]? = none := by
  refine h.indexesPlaces.eq_none fun hx => ?_
  rcases List.mem_map.1 hx with ⟨s, hs, rfl⟩
  simpa using List.find?_eq_none.1 hfind s hs

end StoredFrame

/-! ## Chains of stored levels -/

/-- In stored levels, names are looked up as in the levels of the scope. -/
theorem resolveStored?_eq {stored : List StoredFrame} {levels : List Frame}
    (h : List.Forall₂ StoredFrame.Stores stored levels) (x : String) :
    resolveStored? stored x = levels.findSome? fun f => f.find? (upper x) := by
  induction h generalizing x with
  | nil => rfl
  | @cons t f _ _ hlevel _ ih =>
    rw [resolveStored?, List.findSome?_cons]
    cases hfind : f.find? (upper x) with
    | none =>
      rw [hlevel.index_of_find?_eq_none hfind, ih, upper_upper]
    | some s =>
      rcases hlevel.index_of_find? hfind with ⟨i, hindex, hs⟩
      rw [hindex]
      exact hs

namespace Scope

/-- Stored levels agree with the levels of a scope after all steps. -/
theorem stores_levels (outermost : String) (steps : List ScopeStep) :
    List.Forall₂ StoredFrame.Stores (storedLevels outermost steps)
      ((Scope.empty outermost).performAll steps).levels := by
  rw [levels_performAll, storedLevels]
  exact forall₂_runLevels (fun t f name type h => h.define name type) StoredFrame.stores_nil
    (.cons (StoredFrame.stores_nil outermost) .nil) steps

/-- Steps that stay inside a scope leave its stored levels as they are. -/
theorem drop_storedLevels (outermost : String) (steps : List ScopeStep)
    {inside : List ScopeStep} {depth : Nat} (h : levelsInside? 0 inside = some depth) :
    (storedLevels outermost (steps ++ inside)).drop depth = storedLevels outermost steps := by
  have hstored : storedLevels outermost steps ≠ [] := by
    intro hnil
    have hlevels := (stores_levels outermost steps).length_eq
    rw [hnil] at hlevels
    cases hlevels
  rw [storedLevels, runLevels, List.foldl_append]
  exact runLevels_inside hstored [] h

/-- After any steps, each level of a scope has the names that were defined in it, in the order of
their first definitions and with their last types, and an index that leads to their places.  A
name in any letter case is looked up in the innermost level that defines it.  Steps that stay
inside the scope change nothing in it, and leaving the levels inside leads back to it. -/
theorem levels_are_ordered_maps (outermost : String) (steps : List ScopeStep) :
    let scope := (Scope.empty outermost).performAll steps
    let stored := storedLevels outermost steps
    List.Forall₂ (fun f made =>
        f.Lists made ∧ f.symbols.length = (capitalNames made).toFinset.card)
      scope.levels (ledger steps) ∧
    List.Forall₂ StoredFrame.Stores stored scope.levels ∧
    (∀ x, resolveStored? stored x = scope.resolve? x) ∧
    (∀ x s, scope.resolve? x = some s ↔
      s.name = upper x ∧ InnermostType (ledger steps) (upper x) s.type) ∧
    (∀ x, scope.resolve? x = none ↔ ∀ made ∈ ledger steps, upper x ∉ capitalNames made) ∧
    ∀ inside depth, levelsInside? 0 inside = some depth →
      (scope.performAll inside).levels.drop depth = scope.levels ∧
      (storedLevels outermost (steps ++ inside)).drop depth = stored ∧
      scope.performAll (inside ++ List.replicate depth .pop) = scope := by
  intro scope stored
  have hlists := lists_levels outermost steps
  have hstores := stores_levels outermost steps
  have hresolve := resolve?_performAll outermost steps
  refine ⟨hlists.imp fun f made h => ⟨h, h.length_eq⟩, hstores, resolveStored?_eq hstores,
    fun x s => ?_, fun x => ?_, fun inside depth h => ⟨?_, ?_, ?_⟩⟩
  · rw [hresolve, Option.map_eq_some_iff]
    simp only [findSome?_latestType?_eq_some_iff]
    constructor
    · rintro ⟨type, htype, rfl⟩
      exact ⟨rfl, htype⟩
    · rintro ⟨hname, htype⟩
      exact ⟨s.type, htype, by rw [← hname]⟩
  · rw [hresolve, Option.map_eq_none_iff, List.findSome?_eq_none_iff]
    simp only [latestType?_eq_none_iff]
  · exact scope.drop_levels_performAll h
  · exact drop_storedLevels outermost steps h
  · exact scope.performAll_pops h

/-- A name that is defined twice in one scope, once in another letter case, and is hidden by two
levels inside. -/
theorem shadowed_name_restored :
    let outer : List ScopeStep := [.define "A" .integer, .define "b" .integer, .define "a" .string]
    let inside : List ScopeStep := [.push "INNER", .define "A" .integer, .push "MORE",
      .define "b" .string, .pop]
    let scope := (Scope.empty "GLOBAL").performAll outer
    levelsInside? 0 inside = some 1 ∧
      scope.symbols = [⟨"A", .string⟩, ⟨"B", .integer⟩] ∧
      scope.resolve? "a" = some ⟨"A", .string⟩ ∧
      scope.resolve? "c" = none ∧
      (scope.performAll inside).resolve? "a" = some ⟨"A", .integer⟩ ∧
      (storedLevels "GLOBAL" (outer ++ inside)).drop 1 = storedLevels "GLOBAL" outer ∧
      scope.performAll (inside ++ [.pop]) = scope := by
  intro outer inside scope
  have hinside : levelsInside? 0 inside = some 1 := rfl
  rcases levels_are_ordered_maps "GLOBAL" outer with ⟨-, -, -, hsome, hnone, hframe⟩
  rcases hframe inside 1 hinside with ⟨-, hstored, hback⟩
  refine ⟨hinside, by decide, (hsome "a" _).2 ⟨by decide, [], _, [], rfl, by simp, by decide⟩,
    (hnone "c").2 (by decide), by decide, hstored, hback⟩

end Scope

end LineBasic
