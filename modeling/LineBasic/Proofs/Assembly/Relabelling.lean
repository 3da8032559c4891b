import LineBasic.Proofs.Assembly.Listing
import Mathlib.Data.List.Basic

/-!
# Other labels in instructions

Instructions can take other labels in the place of their own.  If the other labels are as long as
the own ones, nothing in the text moves, so that two texts are the same only if the labels are.

Main definitions:

- `Operand.relabel`, `Instr.relabel` and `Item.relabel`: other labels in instructions.

Main results:

- `renderChars_map_relabel_iff`: when the text stays the same.
-/

namespace LineBasic.Assembly

section Definitions

variable (f : Label → Label)

/-- An operand with another label. -/
def Operand.relabel : Operand → Operand
  | address l => .address (f l)
  | memory width (.label l) => .memory width (.label (f l))
  | o => o

/-- An instruction that takes other labels. -/
def Instr.relabel : Instr → Instr
  | mov dst src => .mov (dst.relabel f) (src.relabel f)
  | add dst src => .add (dst.relabel f) (src.relabel f)
  | sub dst src => .sub (dst.relabel f) (src.relabel f)
  | cmp lhs rhs => .cmp (lhs.relabel f) (rhs.relabel f)
  | xor dst src => .xor (dst.relabel f) (src.relabel f)
  | xchg lhs rhs => .xchg (lhs.relabel f) (rhs.relabel f)
  | push src => .push (src.relabel f)
  | pop dst => .pop (dst.relabel f)
  | inc dst => .inc (dst.relabel f)
  | dec dst => .dec (dst.relabel f)
  | neg dst => .neg (dst.relabel f)
  | mul src => .mul (src.relabel f)
  | imul src => .imul (src.relabel f)
  | div src => .div (src.relabel f)
  | idiv src => .idiv (src.relabel f)
  | jmp l => .jmp (f l)
  | jump cond l => .jump cond (f l)
  | loop l => .loop (f l)
  | call l => .call (f l)
  | i => i

/-- An item whose instruction takes other labels; the label that an item defines stays. -/
def Item.relabel : Item → Item
  | instr i => .instr (i.relabel f)
  | noted i note => .noted (i.relabel f) note
  | i => i

end Definitions

variable {f : Label → Label}

/-! ## Operands -/

/-- An operand stays if its label does. -/
theorem Operand.relabel_eq_self {o : Operand} (h : ∀ l, o.label? = some l → f l = l) :
    o.relabel f = o := by
  cases o with
  | address l => rw [relabel, h l rfl]
  | memory width p =>
    cases p with
    | label l => rw [relabel, h l rfl]
    | _ => rfl
  | _ => rfl

namespace Instr

theorem operands_relabel (i : Instr) :
    (i.relabel f).operands = i.operands.map (Operand.relabel f) := by
  cases i <;> rfl

theorem mnemonic_relabel (i : Instr) : (i.relabel f).mnemonic = i.mnemonic := by
  cases i <;> rfl

/-- An instruction has two operands at most. -/
theorem operands_cases (i : Instr) :
    i.operands = [] ∨ (∃ a, i.operands = [a]) ∨ ∃ a b, i.operands = [a, b] := by
  cases i <;> simp [operands]

end Instr

/-! ## Texts -/

/-- Other labels that are as long as the own ones. -/
def KeepsLengths (f : Label → Label) : Prop :=
  ∀ l, (f l).render.length = l.render.length

section Texts

variable (hf : KeepsLengths f)
include hf

/-- An operand stays as long as it is. -/
theorem Operand.length_relabel (o : Operand) : (o.relabel f).render.length = o.render.length := by
  cases o with
  | address l => exact hf l
  | memory width p =>
    cases p with
    | label l => simp [relabel, render, Place.render, hf l]
    | _ => rfl
  | _ => rfl

/-- An instruction stays as long as it is. -/
theorem Instr.length_relabel (i : Instr) : (i.relabel f).render.length = i.render.length := by
  rw [render_eq, render_eq, operands_relabel, mnemonic_relabel]
  rcases i.operands_cases with h | ⟨a, h⟩ | ⟨a, b, h⟩
  · simp [h]
  · simp [h, unary, Operand.length_relabel hf a]
  · simp [h, binary, Operand.length_relabel hf a, Operand.length_relabel hf b]

/-- An item stays as long as it is. -/
theorem Item.length_relabel (i : Item) : (i.relabel f).render.length = i.render.length := by
  cases i with
  | instr i => simp [relabel, render, Instr.length_relabel hf i]
  | noted i note => simp [relabel, render, noteGap, Instr.length_relabel hf i]
  | _ => rfl

omit hf in
/-- An operand is spelled as before if its label stays. -/
theorem Operand.render_relabel_iff (o : Operand) :
    (o.relabel f).render = o.render ↔ ∀ l, o.label? = some l → f l = l := by
  refine ⟨fun h l hl => ?_, fun h => by rw [relabel_eq_self h]⟩
  cases o with
  | address k =>
    cases hl
    exact Label.render_injective h
  | memory width p =>
    cases p with
    | label k =>
      cases hl
      simpa [relabel, render, Place.render, Label.render_injective.eq_iff] using h
    | _ => cases hl
  | _ => cases hl

/-- An instruction is spelled as before if its labels stay. -/
theorem Instr.render_relabel_iff (i : Instr) :
    (i.relabel f).render = i.render ↔ ∀ l ∈ i.labels, f l = l := by
  have hlabels : (∀ l ∈ i.labels, f l = l) ↔
      ∀ o ∈ i.operands, (o.relabel f).render = o.render := by
    simp only [labels, List.mem_filterMap, Operand.render_relabel_iff]
    constructor
    · intro h o ho l hl
      exact h l ⟨o, ho, hl⟩
    · intro h l hl
      obtain ⟨o, ho, hlabel⟩ := hl
      exact h o ho l hlabel
  rw [hlabels, render_eq, render_eq, operands_relabel, mnemonic_relabel]
  rcases i.operands_cases with h | ⟨a, h⟩ | ⟨a, b, h⟩
  · simp [h]
  · simp [h, unary]
  · have hlength : (a.relabel f).render.toList.length = a.render.toList.length := by
      rw [String.length_toList, String.length_toList, Operand.length_relabel hf a]
    simp only [h, List.map_cons, List.map_nil, List.forall_mem_cons, binary, ← String.toList_inj,
      String.toList_append, List.append_assoc, List.append_cancel_left_eq]
    constructor
    · intro heq
      rcases List.append_inj heq hlength with ⟨ha, hb⟩
      exact ⟨ha, List.append_cancel_left hb, by simp⟩
    · rintro ⟨ha, hb, -⟩
      rw [ha, hb]

/-- An item is spelled as before if the labels that it takes stay. -/
theorem Item.render_relabel_iff (i : Item) :
    (i.relabel f).render = i.render ↔ ∀ l ∈ i.mentioned, f l = l := by
  cases i with
  | instr i =>
    change _ ↔ ∀ l ∈ i.labels, f l = l
    rw [← Instr.render_relabel_iff hf i]
    simp [relabel, render]
  | noted i note =>
    change _ ↔ ∀ l ∈ i.labels, f l = l
    rw [← Instr.render_relabel_iff hf i]
    simp [relabel, render, noteGap, Instr.length_relabel hf i]
  | _ => simp [relabel, mentioned]

/-- A text stays the same if the labels that its instructions take do. -/
theorem renderChars_map_relabel_iff (items : List Item) :
    renderChars (items.map (Item.relabel f)) = renderChars items ↔
      ∀ l ∈ mentioned items, f l = l := by
  induction items with
  | nil => simp [renderChars, mentioned]
  | cons i rest ih =>
    have hlength : ((i.relabel f).render.toList ++ ['\n']).length =
        (i.render.toList ++ ['\n']).length := by
      rw [List.length_append, List.length_append, String.length_toList, String.length_toList,
        Item.length_relabel hf i]
    have hfirst := Item.render_relabel_iff hf i
    rw [← String.toList_inj] at hfirst
    change (Item.relabel f i).render.toList ++ ['\n'] ++ renderChars (rest.map (Item.relabel f)) =
      i.render.toList ++ ['\n'] ++ renderChars rest ↔
      ∀ l ∈ i.mentioned ++ mentioned rest, f l = l
    rw [List.forall_mem_append, ← ih, ← hfirst]
    constructor
    · intro heq
      rcases List.append_inj heq hlength with ⟨hhere, hlater⟩
      exact ⟨List.append_cancel_right hhere, hlater⟩
    · rintro ⟨hhere, hlater⟩
      rw [hhere, hlater]

end Texts

end LineBasic.Assembly
