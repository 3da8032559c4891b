/-!
# First places in lists

A check that goes through a list and stops at the first fault reports one place of the list: the
fault is there, and it is at no place before.  Whether there is a fault at a place may depend on
the element there and on all elements in front of it.

Main definitions:

- `Nowhere`: a fault is at no place of a list.
- `FirstAt`: the first place of a list with a fault.

Main results:

- `nowhere_append_iff`: a list without faults, in two parts.
- `FirstAt.of_append` and `FirstAt.behind`: first places in parts of a list.
- `FirstAt.unique`: there is one first place.
-/

namespace LineBasic

variable {α : Type} {p : List α → α → Prop}

/-- At no place of a list does `p` hold of the elements in front of it and the one there. -/
def Nowhere (p : List α → α → Prop) (xs : List α) : Prop :=
  ∀ before a behind, xs = before ++ a :: behind → ¬ p before a

/-- The first place of a list where `p` holds: `before` are the elements in front of it. -/
structure FirstAt (p : List α → α → Prop) (xs before : List α) (a : α) : Prop where
  exists_eq : ∃ behind, xs = before ++ a :: behind
  holds : p before a
  nowhere : Nowhere p before

@[simp] theorem nowhere_nil : Nowhere p [] := by
  intro before a behind h
  cases before <;> cases h

/-- In two parts of a list there is no fault exactly if there is none in the whole list. -/
theorem nowhere_append_iff {xs ys : List α} :
    Nowhere p (xs ++ ys) ↔ Nowhere p xs ∧ Nowhere (fun before => p (xs ++ before)) ys := by
  constructor
  · intro h
    refine ⟨?_, ?_⟩
    · rintro before a behind rfl
      exact h before a (behind ++ ys) (by simp)
    · rintro before a behind rfl
      exact h (xs ++ before) a behind (by simp)
  · rintro ⟨hxs, hys⟩ before a behind h
    rcases List.append_eq_append_iff.1 h with ⟨middle, rfl, hright⟩ | ⟨middle, hleft, hright⟩
    · exact hys middle a behind hright
    · cases middle with
      | nil =>
        rw [List.append_nil] at hleft
        subst hleft
        simpa using hys [] a behind hright.symm
      | cons b rest =>
        injection hright with hb hrest
        subst hb
        exact hxs before a rest hleft

/-- A list of one element has one place. -/
theorem nowhere_singleton_iff {a : α} : Nowhere p [a] ↔ ¬ p [] a := by
  constructor
  · intro h
    exact h [] a [] rfl
  · intro h before b behind heq
    cases before with
    | nil =>
      cases heq
      exact h
    | cons c rest => cases rest <;> cases heq

/-- One more element is one more place. -/
theorem nowhere_snoc_iff {xs : List α} {a : α} :
    Nowhere p (xs ++ [a]) ↔ Nowhere p xs ∧ ¬ p xs a := by
  rw [nowhere_append_iff, nowhere_singleton_iff, List.append_nil]

namespace FirstAt

variable {xs ys before : List α} {a : α}

/-- A list with a first fault is not without faults. -/
theorem not_nowhere (h : FirstAt p xs before a) : ¬ Nowhere p xs := by
  rcases h.exists_eq with ⟨behind, heq⟩
  exact fun hnowhere => hnowhere before a behind heq h.holds

/-- A first fault stays the first one if the list goes on. -/
theorem of_append (h : FirstAt p xs before a) : FirstAt p (xs ++ ys) before a := by
  rcases h.exists_eq with ⟨behind, rfl⟩
  exact ⟨⟨behind ++ ys, by simp⟩, h.holds, h.nowhere⟩

/-- The first fault behind a part without faults. -/
theorem behind (hxs : Nowhere p xs) (h : FirstAt (fun before => p (xs ++ before)) ys before a) :
    FirstAt p (xs ++ ys) (xs ++ before) a := by
  rcases h.exists_eq with ⟨behind, rfl⟩
  exact ⟨⟨behind, by simp⟩, h.holds, nowhere_append_iff.2 ⟨hxs, h.nowhere⟩⟩

/-- There is one first fault. -/
theorem unique {before' : List α} {a' : α} (h : FirstAt p xs before a)
    (h' : FirstAt p xs before' a') : before = before' ∧ a = a' := by
  rcases h.exists_eq with ⟨behind, rfl⟩
  rcases h'.exists_eq with ⟨behind', heq⟩
  rcases List.append_eq_append_iff.1 heq with ⟨middle, hleft, hright⟩ | ⟨middle, hleft, hright⟩
  · cases middle with
    | nil =>
      injection hright with ha
      exact ⟨by simpa using hleft.symm, ha⟩
    | cons b rest =>
      injection hright with hb
      subst hb
      exact absurd h.holds (h'.nowhere before a rest hleft)
  · cases middle with
    | nil =>
      injection hright with ha
      exact ⟨by simpa using hleft, ha.symm⟩
    | cons b rest =>
      injection hright with hb
      subst hb
      exact absurd h'.holds (h.nowhere before' a' rest hleft)

end FirstAt

end LineBasic
