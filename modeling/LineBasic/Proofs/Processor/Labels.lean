import LineBasic.Assembly.Listing

/-!
# What labels stand for

A label with a leading dot belongs to the nearest label before it without one, so the same dot
label may be defined many times in a listing.  The full name of a label says whom it belongs to,
and a reference means the place where its full name is defined.

Main definitions:

- `FullName`: a label and the label that it belongs to.
- `definitions` and `ownerAt`: the full names that a listing defines, and whom a place belongs to.
- `resolve?`: the place that a label stands for where it is used.
- `Placed`: code that stands at a place of a listing, with all of its own dot labels.

Main results:

- `resolve?_eq_of_not_mem`: a reference means the first definition of its full name.
- `Placed.left` and `Placed.right`: the parts of code that is placed are placed.
- `Placed.of_fresh`: code with dot labels that are new is placed where it stands.
-/

namespace LineBasic.Assembly

/-! ## Full names -/

/-- A label and, if it has a leading dot, the label that it belongs to. -/
structure FullName where
  owner : Option Label
  label : Label
deriving DecidableEq, Repr

/-- The full name of a label at a place that belongs to `owner`. -/
def fullName (owner : Option Label) (l : Label) : FullName :=
  match l with
  | .inner s => ⟨owner, .inner s⟩
  | l => ⟨none, l⟩

/-- The label that an item defines. -/
def Item.defined? : Item → Option Label
  | label l => some l
  | storage l _ => some l
  | _ => none

/-- Whom the places behind an item belong to. -/
def Item.ownerBehind (owner : Option Label) (i : Item) : Option Label :=
  match i.defined? with
  | none => owner
  | some (.inner _) => owner
  | some l => some l

/-- Whom the places behind items belong to. -/
def ownerBehind (owner : Option Label) (items : List Item) : Option Label :=
  items.foldl Item.ownerBehind owner

/-- The full names that items define, one entry for each item. -/
def definitions (owner : Option Label) : List Item → List (Option FullName)
  | [] => []
  | i :: rest => i.defined?.map (fullName owner) :: definitions (i.ownerBehind owner) rest

/-- Whom a place of a listing belongs to. -/
def ownerAt (listing : List Item) (q : Nat) : Option Label :=
  ownerBehind none (listing.take q)

/-- The place that a label stands for in an instruction at `q`. -/
def resolve? (listing : List Item) (q : Nat) (l : Label) : Option Nat :=
  (definitions none listing).idxOf? (some (fullName (ownerAt listing q) l))

theorem length_definitions (owner : Option Label) (items : List Item) :
    (definitions owner items).length = items.length := by
  induction items generalizing owner with
  | nil => rfl
  | cons i rest ih => simp [definitions, ih]

theorem definitions_append (owner : Option Label) (xs ys : List Item) :
    definitions owner (xs ++ ys) =
      definitions owner xs ++ definitions (ownerBehind owner xs) ys := by
  induction xs generalizing owner with
  | nil => rfl
  | cons i rest ih => simp [definitions, ownerBehind, ih]

theorem ownerBehind_append (owner : Option Label) (xs ys : List Item) :
    ownerBehind owner (xs ++ ys) = ownerBehind (ownerBehind owner xs) ys :=
  List.foldl_append

/-- A label that an item defines is there with its full name. -/
theorem exists_mem_definitions {items : List Item} {i : Item} {l : Label} (hi : i ∈ items)
    (hl : i.defined? = some l) (owner : Option Label) :
    ∃ whose, some (fullName whose l) ∈ definitions owner items := by
  induction items generalizing owner with
  | nil => cases hi
  | cons first rest ih =>
    rcases List.mem_cons.1 hi with rfl | hmem
    · exact ⟨owner, by simp [definitions, hl]⟩
    · rcases ih hmem (first.ownerBehind owner) with ⟨whose, hwhose⟩
      exact ⟨whose, List.mem_cons_of_mem _ hwhose⟩

/-- A reference means the first definition of its full name. -/
theorem resolve?_eq_of_not_mem {listing before behind : List Item} {i : Item} {q : Nat} {l : Label}
    (hlisting : listing = before ++ i :: behind)
    (hname : i.defined?.map (fullName (ownerBehind none before)) =
      some (fullName (ownerAt listing q) l))
    (hfirst : some (fullName (ownerAt listing q) l) ∉ definitions none before) :
    resolve? listing q l = some before.length := by
  unfold resolve?
  generalize fullName (ownerAt listing q) l = name at hname hfirst
  rw [hlisting, definitions_append, List.idxOf?, List.findIdx?_append, definitions, hname]
  have hnone : (definitions none before).findIdx? (· == some name) = none := by
    rw [List.findIdx?_eq_none_iff]
    intro other hmem
    simp only [beq_eq_false_iff_ne]
    exact fun heq => hfirst (heq ▸ hmem)
  rw [hnone, List.findIdx?_cons]
  simp [length_definitions]

/-- The full name of a label without a dot is the same everywhere. -/
theorem fullName_of_ne_inner {l : Label} (h : ∀ s, l ≠ .inner s) (owner : Option Label) :
    fullName owner l = ⟨none, l⟩ := by
  cases l with
  | inner s => exact absurd rfl (h s)
  | _ => rfl

/-- Behind a label without a dot, places belong to it. -/
theorem ownerBehind_label {l : Label} (h : ∀ s, l ≠ .inner s) (owner : Option Label) :
    (Item.label l).ownerBehind owner = some l := by
  cases l with
  | inner s => exact absurd rfl (h s)
  | _ => rfl

/-! ## Items with dot labels only -/

/-- Items that define no label but dot labels. -/
def OnlyInner (items : List Item) : Prop :=
  ∀ i ∈ items, ∀ l, i.defined? = some l → ∃ s, l = .inner s

theorem onlyInner_code (instructions : List Instr) : OnlyInner (code instructions) := by
  intro i hi l hl
  rcases List.mem_map.1 hi with ⟨instruction, -, rfl⟩
  cases hl

theorem onlyInner_nil : OnlyInner [] := by
  intro i hi
  cases hi

theorem OnlyInner.append {xs ys : List Item} (hxs : OnlyInner xs) (hys : OnlyInner ys) :
    OnlyInner (xs ++ ys) := by
  intro i hi
  rcases List.mem_append.1 hi with h | h
  · exact hxs i h
  · exact hys i h

theorem OnlyInner.cons_inner {xs : List Item} (s : Spot) (hxs : OnlyInner xs) :
    OnlyInner (.label (.inner s) :: xs) := by
  intro i hi l hl
  rcases List.mem_cons.1 hi with rfl | h
  · cases hl
    exact ⟨s, rfl⟩
  · exact hxs i h l hl

/-- Dot labels do not change whom a place belongs to. -/
theorem OnlyInner.ownerBehind_eq {xs : List Item} (h : OnlyInner xs) (owner : Option Label) :
    ownerBehind owner xs = owner := by
  induction xs generalizing owner with
  | nil => rfl
  | cons i rest ih =>
    have hfirst : i.ownerBehind owner = owner := by
      unfold Item.ownerBehind
      cases hdefined : i.defined? with
      | none => rfl
      | some l =>
        rcases h i List.mem_cons_self l hdefined with ⟨s, rfl⟩
        rfl
    change ownerBehind (i.ownerBehind owner) rest = owner
    rw [hfirst]
    exact ih (fun j hj => h j (List.mem_cons_of_mem _ hj)) owner

/-- The dot label that an item defines. -/
def Item.spot? (i : Item) : Option Spot :=
  match i.defined? with
  | some (.inner s) => some s
  | _ => none

/-- The dot labels that items define. -/
def spots (items : List Item) : List Spot :=
  items.filterMap Item.spot?

@[simp] theorem spots_code (instructions : List Instr) : spots (code instructions) = [] := by
  simp [spots, code, Item.spot?, Item.defined?]

@[simp] theorem spots_append (xs ys : List Item) : spots (xs ++ ys) = spots xs ++ spots ys :=
  List.filterMap_append

@[simp] theorem spots_nil : spots [] = [] := rfl

@[simp] theorem spots_cons_inner (s : Spot) (xs : List Item) :
    spots (.label (.inner s) :: xs) = s :: spots xs := rfl

/-- All that items with dot labels only define are these labels, for their owner. -/
theorem OnlyInner.mem_definitions {items : List Item} (h : OnlyInner items)
    {owner : Option Label} {name : FullName} (hname : some name ∈ definitions owner items) :
    ∃ s ∈ spots items, name = ⟨owner, .inner s⟩ := by
  induction items with
  | nil => cases hname
  | cons i rest ih =>
    have hrest : OnlyInner rest := fun j hj => h j (List.mem_cons_of_mem _ hj)
    have hone : OnlyInner [i] := fun j hj => h j (List.mem_singleton.1 hj ▸ List.mem_cons_self)
    have hsame : i.ownerBehind owner = owner := hone.ownerBehind_eq owner
    rw [definitions, hsame] at hname
    rcases List.mem_cons.1 hname with hfirst | hmem
    · rcases Option.map_eq_some_iff.1 hfirst.symm with ⟨l, hl, rfl⟩
      rcases h i List.mem_cons_self l hl with ⟨s, rfl⟩
      have hspot : i.spot? = some s := by rw [Item.spot?, hl]
      exact ⟨s, List.mem_filterMap.2 ⟨i, List.mem_cons_self, hspot⟩, rfl⟩
    · rcases ih hrest hmem with ⟨s, hs, rfl⟩
      refine ⟨s, ?_, rfl⟩
      change s ∈ spots ([i] ++ rest)
      rw [spots_append]
      exact List.mem_append_right _ hs

/-! ## Code at a place -/

/-- Items stand at a place of a listing, and mean their own dot labels. -/
structure Placed (listing : List Item) (q : Nat) (items : List Item) : Prop where
  get : ∀ j i, items[j]? = some i → listing[q + j]? = some i
  resolve : ∀ j k s, items[j]? = some (.label (.inner s)) → k < items.length →
    resolve? listing (q + k) (.inner s) = some (q + j)

namespace Placed

variable {listing xs ys : List Item} {q : Nat}

/-- The first part of code that is placed is placed. -/
theorem left (h : Placed listing q (xs ++ ys)) : Placed listing q xs where
  get j i hj := by
    have hlt := (List.getElem?_eq_some_iff.1 hj).1
    exact h.get j i (by rw [List.getElem?_append_left hlt, hj])
  resolve j k s hj hk := by
    have hlt := (List.getElem?_eq_some_iff.1 hj).1
    refine h.resolve j k s (by rw [List.getElem?_append_left hlt, hj]) ?_
    rw [List.length_append]
    omega

/-- The second part of code that is placed is placed behind the first. -/
theorem right (h : Placed listing q (xs ++ ys)) : Placed listing (q + xs.length) ys where
  get j i hj := by
    have hthere : (xs ++ ys)[xs.length + j]? = some i := by
      rw [List.getElem?_append_right (by omega), Nat.add_sub_cancel_left, hj]
    have hget := h.get _ i hthere
    rwa [← Nat.add_assoc] at hget
  resolve j k s hj hk := by
    have hthere : (xs ++ ys)[xs.length + j]? = some (.label (.inner s)) := by
      rw [List.getElem?_append_right (by omega), Nat.add_sub_cancel_left, hj]
    have hresolve := h.resolve _ (xs.length + k) s hthere (by rw [List.length_append]; omega)
    rwa [← Nat.add_assoc, ← Nat.add_assoc] at hresolve

/-- The first item of code that is placed. -/
theorem head {i : Item} (h : Placed listing q (i :: ys)) : listing[q]? = some i :=
  h.get 0 i rfl

/-- The rest of code that is placed is placed behind the first item. -/
theorem tail {i : Item} (h : Placed listing q (i :: ys)) : Placed listing (q + 1) ys := by
  have hsplit : Placed listing q ([i] ++ ys) := h
  exact hsplit.right

/-- Code is placed if its dot labels are distinct and none of them is defined before it for the
same owner. -/
theorem of_fresh {before items behind : List Item} (hlisting : listing = before ++ items ++ behind)
    (hfresh : ∀ s ∈ spots items,
      some ⟨ownerBehind none before, .inner s⟩ ∉ definitions none before)
    (hinner : OnlyInner items) (hnodup : (spots items).Nodup) :
    Placed listing before.length items where
  get j i hj := by
    have hlt := (List.getElem?_eq_some_iff.1 hj).1
    rw [hlisting, List.append_assoc, List.getElem?_append_right (by omega),
      Nat.add_sub_cancel_left, List.getElem?_append_left hlt, hj]
  resolve j k s hj hk := by
    have howned (m : Nat) :
        ownerBehind none (before ++ items.take m) = ownerBehind none before := by
      have htake : OnlyInner (items.take m) := fun i hi => hinner i (List.mem_of_mem_take hi)
      rw [ownerBehind_append, htake.ownerBehind_eq]
    -- the place of the reference belongs to the owner of the place before the code
    have hat : ownerAt listing (before.length + k) = ownerBehind none before := by
      have hsplit : listing = (before ++ items.take k) ++ (items.drop k ++ behind) := by
        rw [hlisting, List.append_assoc, List.append_assoc, ← List.append_assoc (items.take k),
          List.take_append_drop]
      rw [ownerAt, hsplit, List.take_left' (by simp; omega), howned]
    -- and so does the place of the definition, before which there is no other
    rcases List.getElem?_eq_some_iff.1 hj with ⟨hlt, hget⟩
    have hitems : items = items.take j ++ .label (.inner s) :: items.drop (j + 1) := by
      rw [← hget, ← List.drop_eq_getElem_cons hlt, List.take_append_drop]
    have hsplit : listing = (before ++ items.take j) ++
        .label (.inner s) :: (items.drop (j + 1) ++ behind) := by
      rw [hlisting]
      conv => lhs; rw [hitems]
      simp
    have hname : fullName (ownerAt listing (before.length + k)) (.inner s) =
        ⟨ownerBehind none before, .inner s⟩ := by rw [hat]; rfl
    have hspot : s ∈ spots items := by
      rw [hitems, spots_append, spots_cons_inner]
      exact List.mem_append_right _ List.mem_cons_self
    have hfirst : some ⟨ownerBehind none before, .inner s⟩ ∉
        definitions none (before ++ items.take j) := by
      rw [definitions_append]
      intro hmem
      rcases List.mem_append.1 hmem with hbefore | hearlier
      · exact hfresh s hspot hbefore
      · have htake : OnlyInner (items.take j) := fun i hi => hinner i (List.mem_of_mem_take hi)
        rcases htake.mem_definitions hearlier with ⟨s', hs', heq⟩
        cases heq
        rw [hitems, spots_append, spots_cons_inner, List.nodup_append] at hnodup
        exact hnodup.2.2 s hs' s List.mem_cons_self rfl
    rw [resolve?_eq_of_not_mem hsplit (by rw [hname, howned]; rfl) (by rw [hname]; exact hfirst)]
    simp
    omega

/-- Code behind a label that occurs nowhere before is placed if its dot labels are distinct. -/
theorem of_label {before items behind : List Item} {owner : Label}
    (hlisting : listing = before ++ .label owner :: (items ++ behind))
    (howner : ∀ s, owner ≠ .inner s)
    (hnew : ∀ s, some ⟨some owner, .inner s⟩ ∉ definitions none before)
    (hinner : OnlyInner items) (hnodup : (spots items).Nodup) :
    Placed listing (before.length + 1) items := by
  have hsplit : listing = (before ++ [.label owner]) ++ items ++ behind := by
    rw [hlisting]
    simp
  have howned : ownerBehind none (before ++ [.label owner]) = some owner := by
    rw [ownerBehind_append]
    exact ownerBehind_label howner _
  have hfresh : ∀ s ∈ spots items, some ⟨ownerBehind none (before ++ [.label owner]), .inner s⟩ ∉
      definitions none (before ++ [.label owner]) := by
    intro s _ hmem
    rw [howned, definitions_append] at hmem
    rcases List.mem_append.1 hmem with hbefore | hlabel
    · exact hnew s hbefore
    · rw [definitions, Item.defined?, Option.map_some, fullName_of_ne_inner howner] at hlabel
      cases List.mem_singleton.1 hlabel
  have hplaced := of_fresh hsplit hfresh hinner hnodup
  rwa [List.length_append, List.length_singleton] at hplaced

end Placed

end LineBasic.Assembly
