import Mathlib.Data.Finset.Card
import Std.Data.HashMap.Lemmas

/-!
# First occurrences

The distinct elements of a list, in the order in which they first occur, are kept by putting each
element that is new behind the others.  An index leads from each of them to its place.

Main definitions:

- `FirstOccurrences`: the elements of a list, each of them once, in the order in which they occur.
- `IndexesPlaces`: an index that leads from names to their places, and from nothing else.

Main results:

- `FirstOccurrences.concat`: one more element.
- `FirstOccurrences.map`: elements that are replaced by others, different ones by different ones.
- `IndexesPlaces.concat`: one more name in an index.
-/

namespace LineBasic

/-! ## Elements in order -/

section Elements

variable {α β : Type} [DecidableEq α] [DecidableEq β] {xs ys : List α}

/-- The elements of a list, each of them once, in the order in which they first occur. -/
structure FirstOccurrences (xs ys : List α) : Prop where
  nodup : xs.Nodup
  mem_iff : ∀ x, x ∈ xs ↔ x ∈ ys
  ordered : xs.Pairwise fun x y => ys.idxOf x < ys.idxOf y

theorem FirstOccurrences.nil : FirstOccurrences ([] : List α) [] := by
  constructor <;> simp

/-- There are as many of them as distinct elements. -/
theorem FirstOccurrences.length_eq (h : FirstOccurrences xs ys) :
    xs.length = ys.toFinset.card := by
  have hsame : ys.toFinset = xs.toFinset := by
    ext x
    rw [List.mem_toFinset, List.mem_toFinset, h.mem_iff]
  rw [hsame, List.toFinset_card_of_nodup h.nodup]

/-- One more element is put behind the others if it did not occur before. -/
theorem FirstOccurrences.concat (h : FirstOccurrences xs ys) (x : α) :
    FirstOccurrences (if x ∈ xs then xs else xs ++ [x]) (ys ++ [x]) := by
  -- what occurred before keeps its place when the list grows
  have hplace : ∀ y ∈ xs, (ys ++ [x]).idxOf y = ys.idxOf y :=
    fun y hy => List.idxOf_append_of_mem ((h.mem_iff y).1 hy)
  have hordered : xs.Pairwise fun y z => (ys ++ [x]).idxOf y < (ys ++ [x]).idxOf z :=
    h.ordered.imp_of_mem fun hy hz hless => by rwa [hplace _ hy, hplace _ hz]
  split
  · rename_i hold
    refine ⟨h.nodup, fun y => ?_, hordered⟩
    rw [h.mem_iff, List.mem_append, List.mem_singleton]
    exact ⟨.inl, fun hy => hy.elim id fun heq => heq ▸ (h.mem_iff x).1 hold⟩
  · rename_i hnew
    refine ⟨?_, fun y => by rw [List.mem_append, List.mem_append, h.mem_iff], ?_⟩
    · rw [List.nodup_append]
      exact ⟨h.nodup, List.nodup_singleton x, fun y hy z hz heq =>
        hnew (List.mem_singleton.1 hz ▸ heq ▸ hy)⟩
    · refine List.pairwise_append.2 ⟨hordered, List.pairwise_singleton _ _, fun y hy z hz => ?_⟩
      have hnotBefore : x ∉ ys := fun hx => hnew ((h.mem_iff x).2 hx)
      have hbound := List.idxOf_lt_length_of_mem ((h.mem_iff y).1 hy)
      rw [List.mem_singleton.1 hz, hplace y hy, List.idxOf_append_of_notMem hnotBefore]
      omega

/-- The place of an element does not change if different elements are replaced by different
ones. -/
theorem idxOf_map_of_injOn {f : α → β} {x : α} (h : ∀ y ∈ ys, f y = f x → y = x) :
    (ys.map f).idxOf (f x) = ys.idxOf x := by
  induction ys with
  | nil => rfl
  | cons y rest ih =>
    rcases List.forall_mem_cons.1 h with ⟨hy, hrest⟩
    rw [List.map_cons, List.idxOf_cons, List.idxOf_cons, ih hrest]
    by_cases heq : y = x
    · rw [heq, beq_self_eq_true, beq_self_eq_true]
    · rw [beq_false_of_ne heq, beq_false_of_ne (mt hy heq)]

/-- First occurrences stay so if different elements are replaced by different ones. -/
theorem FirstOccurrences.map (h : FirstOccurrences xs ys) {f : α → β}
    (hf : ∀ x ∈ ys, ∀ y ∈ ys, f x = f y → x = y) : FirstOccurrences (xs.map f) (ys.map f) where
  nodup := h.nodup.map_on fun x hx y hy =>
    hf x ((h.mem_iff x).1 hx) y ((h.mem_iff y).1 hy)
  mem_iff b := by simp only [List.mem_map, h.mem_iff]
  ordered := by
    rw [List.pairwise_map]
    refine h.ordered.imp_of_mem fun {x y} hx hy hless => ?_
    rw [idxOf_map_of_injOn fun z hz => hf z hz x ((h.mem_iff x).1 hx),
      idxOf_map_of_injOn fun z hz => hf z hz y ((h.mem_iff y).1 hy)]
    exact hless

end Elements

/-! ## Places in an index -/

/-- In a list with one more element behind the others, this element is at the last place. -/
theorem getElem?_concat_eq_some_iff {α : Type} {xs : List α} {a x : α} {i : Nat} :
    (xs ++ [a])[i]? = some x ↔ xs[i]? = some x ∨ xs.length = i ∧ a = x := by
  rcases Nat.lt_trichotomy i xs.length with hlt | rfl | hgt
  · rw [List.getElem?_append_left hlt]
    exact ⟨.inl, fun h => h.elim id fun hend => absurd hend.1 hlt.ne'⟩
  · simp
  · have hbound : (xs ++ [a]).length ≤ i := by
      rw [List.length_append, List.length_singleton]
      exact hgt
    rw [List.getElem?_eq_none hbound, List.getElem?_eq_none hgt.le]
    simp [hgt.ne]

/-- An index leads from each name to its place among the names, and from nothing else. -/
def IndexesPlaces (index : Std.HashMap String Nat) (names : List String) : Prop :=
  ∀ (x : String) (i : Nat), index[x]? = some i ↔ names[i]? = some x

namespace IndexesPlaces

variable {index : Std.HashMap String Nat} {names : List String}

theorem nil : IndexesPlaces ∅ [] := by
  intro x i
  simp

/-- A name that is not there is not in the index. -/
theorem eq_none (h : IndexesPlaces index names) {x : String} (hx : x ∉ names) :
    index[x]? = none := by
  rw [Option.eq_none_iff_forall_ne_some]
  intro i hi
  exact hx (List.mem_of_getElem? ((h x i).1 hi))

/-- A new name is put into the index with the place behind the others. -/
theorem concat (h : IndexesPlaces index names) {x : String} (hx : x ∉ names) :
    IndexesPlaces (index.insert x names.length) (names ++ [x]) := by
  intro y i
  rw [Std.HashMap.getElem?_insert, getElem?_concat_eq_some_iff]
  by_cases hy : x = y
  · have hnowhere : names[i]? ≠ some y := fun hi => hx (hy ▸ List.mem_of_getElem? hi)
    simp [hy, hnowhere]
  · simp [hy, h y i]

end IndexesPlaces

end LineBasic
