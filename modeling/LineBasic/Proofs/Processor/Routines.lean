import LineBasic.Proofs.Assembly.Names
import LineBasic.Proofs.Processor.Eventually

/-!
# Routines and their calls

A routine stands behind its label, which is defined once in a listing, and its code belongs to that
label up to the next one without a dot.

Main definitions:

- `RoutineAt`: a place of a listing where a routine stands.
- `InRoutine`: the places of a routine.

Main results:

- `ownerAt_of_label`: code behind a label belongs to it.
- `RoutineAt.of_split`: a routine stands where its label is defined first.
- `Block.callRoutine`: a call goes on behind the label of the routine.
-/

namespace LineBasic.Assembly

variable {listing before body behind : List Item} {owner : Label} {q : Nat}

/-- Code with dot labels only belongs to the label in front of it. -/
theorem ownerAt_of_label (hlisting : listing = before ++ .label owner :: (body ++ behind))
    (howner : ∀ s, owner ≠ .inner s) (hinner : OnlyInner body) {k : Nat} (hk : k ≤ body.length) :
    ownerAt listing (before.length + 1 + k) = some owner := by
  have hsplit : listing = (before ++ .label owner :: body.take k) ++ (body.drop k ++ behind) := by
    rw [hlisting, List.append_assoc, List.cons_append, ← List.append_assoc (body.take k),
      List.take_append_drop]
  have htake : OnlyInner (body.take k) := fun i hi => hinner i (List.mem_of_mem_take hi)
  have hlength : (before ++ Item.label owner :: body.take k).length = before.length + 1 + k := by
    simp
    omega
  rw [ownerAt, hsplit, List.take_left' hlength, ownerBehind_append]
  change ownerBehind ((Item.label owner).ownerBehind _) (body.take k) = some owner
  rw [ownerBehind_label howner, htake.ownerBehind_eq]

/-- Items that define nothing or dot labels only. -/
theorem OnlyInner.of_forall {items : List Item}
    (h : ∀ i ∈ items, i.defined? = none ∨ i.spot?.isSome = true) : OnlyInner items := by
  intro i hi l hl
  rcases h i hi with hnone | hspot
  · rw [hnone] at hl
    cases hl
  · rw [Item.spot?, hl] at hspot
    cases l with
    | inner s => exact ⟨s, rfl⟩
    | _ => cases hspot

/-! ## Where a routine stands -/

/-- The places of a routine, its label included. -/
def InRoutine (listing : List Item) (r : Routine) (q : Nat) : Prop :=
  ownerAt listing (q + 1) = some (.routine r)

/-- A routine stands at a place of a listing, where all calls of it go. -/
structure RoutineAt (listing : List Item) (r : Routine) (q : Nat) (body : List Item) : Prop where
  label : listing[q]? = some (.label (.routine r))
  resolve : ∀ p, resolve? listing p (.routine r) = some q
  owned : ∀ k ≤ body.length, InRoutine listing r (q + k)
  placed : Placed listing (q + 1) body

/-- A routine stands where its label is defined first. -/
theorem RoutineAt.of_split {r : Routine}
    (hlisting : listing = before ++ .label (.routine r) :: (body ++ behind))
    (hnew : ∀ name, some name ∈ definitions none before → name.front ≠ .routine r)
    (hinner : OnlyInner body) (hnodup : (spots body).Nodup) :
    RoutineAt listing r before.length body := by
  have howner : ∀ s, Label.routine r ≠ .inner s := fun s heq => by cases heq
  refine ⟨?_, fun p => ?_, fun k hk => ?_, ?_⟩
  · rw [hlisting, List.getElem?_append_right (Nat.le_refl _), Nat.sub_self]
    rfl
  · refine resolve?_eq_of_not_mem hlisting rfl fun hmem => ?_
    exact hnew ⟨none, .routine r⟩ hmem rfl
  · have howned := ownerAt_of_label hlisting howner hinner hk
    rwa [Nat.add_right_comm] at howned
  · exact .of_label hlisting howner (fun s hmem => hnew _ hmem rfl) hinner hnodup

/-! ## Calls -/

variable {layout : Layout} {inside : Nat → Prop} {P : Nat → Computer → Prop} {c : Computer}
  {items : List Item} {r : Routine} {p j : Nat}

/-- The code of a routine, if its places are among those that are not left. -/
theorem RoutineAt.block (hr : RoutineAt listing r p body)
    (hinside : ∀ k, InRoutine listing r k → inside k) : Block listing inside (p + 1) body where
  placed := hr.placed
  inside_of_lt k hk := by
    refine hinside _ ?_
    rw [Nat.add_assoc, Nat.add_comm 1]
    exact hr.owned _ hk

/-- A call goes on behind the label of the routine, with the place behind the call to come back
to. -/
theorem Block.callRoutine (h : Block listing inside q items) (hr : RoutineAt listing r p body)
    (hinside : ∀ k, InRoutine listing r k → inside k)
    (hitem : items[j]? = some (.instr (.call (.routine r))))
    (hrest : Eventually layout listing inside P (p + 1)
      { c with stack := .place (q + (j + 1)) :: c.stack }) :
    Eventually layout listing inside P (q + j) c := by
  refine h.call hitem (hr.resolve _) (.step (hinside p (hr.owned 0 (Nat.zero_le _))) ?_ hrest)
  rw [Computer.step?, hr.label]

end LineBasic.Assembly
