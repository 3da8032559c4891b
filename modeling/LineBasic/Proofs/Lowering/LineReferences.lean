import LineBasic.Proofs.Check.Checked
import LineBasic.Proofs.Lowering.Layout
import LineBasic.Proofs.Lowering.References
import Mathlib.Data.List.Nodup

/-!
# What lines refer to

The code of the lines of a checked program defines the labels of the lines and, for each line, its
own dot labels, all of them once.  It refers to these, to declared variables, to texts in the pool
and to routines.  The pool has the texts of the program and no others.

Main definition:

- `Sound`: lines whose variables are declared and whose targets are lines of the program.

Main results:

- `Checked.WellFormed.sound`: the lines of a checked program are sound.
- `nodup_definedNames_lowerLines`: no full name is defined twice in the code of lines.
- `references_lowerLines` and `holds_lowerLines`: what the code of lines refers to.
- `pool_lowerLines`: the pool behind lines.
-/

namespace LineBasic

open Assembly

/-! ## Variables are declared -/

section Variables

variable {scope : Scope}

/-- The variables of an expression without texts are in capitals. -/
theorem Expr.IsArithmetic.upper_eq {e : Expr} (h : e.IsArithmetic) :
    ∀ x ∈ e.names, upper x = x := by
  induction e with
  | number n => simp [names]
  | text content => cases h
  | name x =>
    rw [names, List.forall_mem_singleton]
    exact h
  | binary op lhs rhs ihl ihr =>
    rw [names, List.forall_mem_append]
    exact ⟨ihl h.1, ihr h.2⟩

/-- The variables of an item are in capitals. -/
theorem Expr.IsItem.upper_eq {e : Expr} (h : e.IsItem) : ∀ x ∈ e.names, upper x = x := by
  cases e with
  | text content => simp [names]
  | number | name | binary => exact Expr.IsArithmetic.upper_eq h

/-- The variables of a canonical statement are in capitals. -/
theorem Stmt.IsCanonical.upper_eq {s : Stmt} (h : s.IsCanonical) :
    ∀ x ∈ s.names, upper x = x := by
  induction s with
  | declare type names => exact h
  | assign name value =>
    rw [names, List.forall_mem_cons]
    exact ⟨h.1, h.2.upper_eq⟩
  | input name =>
    rw [names, List.forall_mem_singleton]
    exact h
  | print items =>
    intro x hx
    rcases List.mem_flatMap.1 hx with ⟨e, he, hx⟩
    exact (h e he).upper_eq x hx
  | cond lhs op rhs body ih =>
    rw [names, List.forall_mem_append, List.forall_mem_append]
    exact ⟨⟨h.1.upper_eq, h.2.1.upper_eq⟩, ih h.2.2⟩
  | _ => simp [names]

/-- The variables of a statement that is canonical and well typed are declared. -/
theorem Stmt.IsCanonical.mem_names {s : Stmt} (hcanonical : s.IsCanonical) (h : scope.IsGlobal)
    (htyped : s.WellTyped scope) : ∀ x ∈ s.names, x ∈ scope.symbols.map Symbol.name := by
  intro x hx
  rcases htyped.exists_typeOf? x hx with ⟨type, htype⟩
  exact h.mem_names (hcanonical.upper_eq x hx) htype

end Variables

/-! ## One line -/

section Lines

variable {scope : Scope} {program : Program}

/-- The code of a line. -/
theorem run_lowerLine (line : Line) (st : LoweringState) :
    (lowerLine scope line).run st =
      (.blank :: .label (.line line.number) ::
          (((lowerStmt scope line.stmt).run st).1 ++ [.label (.inner .lineEnd)]),
        ((lowerStmt scope line.stmt).run st).2) :=
  rfl

/-- The code of a line and of the lines behind it. -/
theorem run_lowerLines_cons (line : Line) (rest : List Line) (st : LoweringState) :
    (lowerLines scope (line :: rest)).run st =
      (((lowerLine scope line).run st).1 ++
          ((lowerLines scope rest).run ((lowerLine scope line).run st).2).1,
        ((lowerLines scope rest).run ((lowerLine scope line).run st).2).2) :=
  rfl

variable (scope) in
/-- The code of a line between its label and its end, the end included, has dot labels only. -/
theorem onlyInner_lowerStmt (line : Line) (st : LoweringState) :
    OnlyInner (((lowerStmt scope line.stmt).run st).1 ++ [.label (.inner .lineEnd)]) := by
  rcases exists_emits_lowerStmt scope line.stmt st with ⟨extra, -, hemits⟩
  exact (hemits.append_inner .lineEnd).onlyInner

/-- A line defines its label, and dot labels that belong to it. -/
theorem definedNames_lowerLine (line : Line) (st : LoweringState) (owner : Option Label) :
    definedNames owner ((lowerLine scope line).run st).1 =
      ⟨none, .line line.number⟩ ::
        (spots (((lowerStmt scope line.stmt).run st).1 ++ [.label (.inner .lineEnd)])).map
          fun s => ⟨some (.line line.number), .inner s⟩ := by
  rw [← (onlyInner_lowerStmt scope line st).definedNames_eq, run_lowerLine]
  rfl

/-- A line refers to labels from inside its own. -/
theorem references_lowerLine (line : Line) (st : LoweringState) (owner : Option Label) :
    references owner ((lowerLine scope line).run st).1 =
      (mentioned ((lowerStmt scope line.stmt).run st).1).map
        (fullName (some (.line line.number))) := by
  have hlabel : mentioned [.label (.inner .lineEnd)] = [] := rfl
  have hinner := (onlyInner_lowerStmt scope line st).references_eq (some (.line line.number))
  rw [mentioned_append, hlabel, List.append_nil] at hinner
  rw [← hinner, run_lowerLine]
  rfl

/-! ## Lines -/

/-- The variables of lines are declared, and their targets are lines of the program. -/
def Sound (scope : Scope) (program : Program) (lines : List Line) : Prop :=
  ∀ line ∈ lines, (∀ x ∈ line.stmt.names, Available scope program (.var x)) ∧
    ∀ t, line.stmt.target? = some t → Available scope program (.line t)

/-- The lines of a checked program are sound. -/
theorem Checked.WellFormed.sound {checked : Checked} (h : checked.WellFormed) :
    Sound checked.scope checked.program checked.program.lines := fun line hline =>
  ⟨(h.canonical line hline).mem_names h.isGlobal (h.typed line hline),
    h.numbered.target_mem line hline⟩

/-- No full name is defined twice in the code of lines with distinct numbers. -/
theorem nodup_definedNames_lowerLines {lines : List Line}
    (hnumbers : (lines.map Line.number).Nodup) (st : LoweringState) (owner : Option Label) :
    (definedNames owner ((lowerLines scope lines).run st).1).Nodup := by
  induction lines generalizing st owner with
  | nil => exact List.nodup_nil
  | cons line rest ih =>
    rw [List.map_cons, List.nodup_cons] at hnumbers
    rw [run_lowerLines_cons, definedNames_append, List.nodup_append]
    refine ⟨?_, ih hnumbers.2 _ _, ?_⟩
    · have hspots := nodup_spots_lowerStmt scope line.stmt st
      rw [definedNames_lowerLine, List.nodup_cons]
      refine ⟨by simp, hspots.map fun s t heq => ?_⟩
      cases heq
      rfl
    · -- what is defined behind the line carries the number of another line
      rintro name hname other hother rfl
      rw [mem_definedNames] at hother
      rcases mem_definitions_lowerLines hother with ⟨later, hlater, hcarries⟩
      have hline : name.front = .line line.number := by
        rw [definedNames_lowerLine, List.mem_cons, List.mem_map] at hname
        rcases hname with rfl | ⟨s, -, rfl⟩ <;> rfl
      have hother : name.front = .line later.number := by
        rcases hcarries with rfl | ⟨s, rfl⟩ <;> rfl
      have hnumber : later.number = line.number := Label.line.inj (hother.symm.trans hline)
      exact hnumbers.1 (hnumber ▸ List.mem_map_of_mem hlater)

/-- The label of each line is defined. -/
theorem mem_definedNames_line {lines : List Line} {line : Line} (h : line ∈ lines)
    (st : LoweringState) (owner : Option Label) :
    ⟨none, .line line.number⟩ ∈ definedNames owner ((lowerLines scope lines).run st).1 := by
  induction lines generalizing st owner with
  | nil => cases h
  | cons first rest ih =>
    rw [run_lowerLines_cons, definedNames_append, List.mem_append]
    rcases List.mem_cons.1 h with rfl | hlater
    · rw [definedNames_lowerLine]
      exact .inl List.mem_cons_self
    · exact .inr (ih hlater _ _)

/-- The code of lines refers to what it defines, and to what is available. -/
theorem references_lowerLines {lines : List Line} (h : Sound scope program lines)
    (st : LoweringState) (owner : Option Label) {name : FullName}
    (hname : name ∈ references owner ((lowerLines scope lines).run st).1) :
    name ∈ definedNames owner ((lowerLines scope lines).run st).1 ∨
      ∃ l ∈ mentioned ((lowerLines scope lines).run st).1,
        Available scope program l ∧ name = ⟨none, l⟩ := by
  induction lines generalizing st owner with
  | nil => cases hname
  | cons line rest ih =>
    rcases List.forall_mem_cons.1 h with ⟨⟨hnames, htarget⟩, hrest⟩
    rw [run_lowerLines_cons, references_append] at hname
    rw [run_lowerLines_cons, definedNames_append, mentioned_append]
    rcases List.mem_append.1 hname with hhere | hlater
    · rw [references_lowerLine, List.mem_map] at hhere
      rcases hhere with ⟨l, hl, rfl⟩
      rcases (refers_lowerStmt hnames htarget st).known l hl with havailable | ⟨s, rfl, hs⟩
      · refine .inr ⟨l, ?_, havailable, fullName_of_ne_inner ?_ _⟩
        · rw [List.mem_append, run_lowerLine, mentioned_blank, mentioned_label, mentioned_append,
            List.mem_append]
          exact .inl (.inl hl)
        · rintro s rfl
          exact havailable
      · refine .inl (List.mem_append_left _ ?_)
        rw [definedNames_lowerLine, spots_append]
        refine List.mem_cons_of_mem _ (List.mem_map_of_mem ?_)
        rcases hs with rfl | hs
        · exact List.mem_append_right _ List.mem_cons_self
        · exact List.mem_append_left _ hs
    · rcases ih hrest _ _ hlater with hdefined | ⟨l, hl, havailable, rfl⟩
      · exact .inl (List.mem_append_right _ hdefined)
      · exact .inr ⟨l, List.mem_append_right _ hl, havailable, rfl⟩

/-- The texts of lines are in the pool under the labels that their code takes. -/
theorem holds_lowerLines {lines : List Line} (h : Sound scope program lines)
    (st : LoweringState) :
    Holds ((lowerLines scope lines).run st).2.pool
      (literalUses ((lowerLines scope lines).run st).1)
      (lines.flatMap fun line => line.stmt.texts) := by
  induction lines generalizing st with
  | nil => exact .nil
  | cons line rest ih =>
    rcases List.forall_mem_cons.1 h with ⟨⟨hnames, htarget⟩, hrest⟩
    have hhere := (refers_lowerStmt hnames htarget st).literals.mono
      (pool_extends_lowerLines scope rest _)
    have huses : literalUses ((lowerLine scope line).run st).1 =
        literalUses ((lowerStmt scope line.stmt).run st).1 := by
      rw [run_lowerLine, literalUses, mentioned_blank, mentioned_label, mentioned_append]
      exact congrArg _ (List.append_nil _)
    rw [run_lowerLines_cons, literalUses_append, huses, List.flatMap_cons]
    exact List.rel_append hhere (ih hrest _)

/-- The code of lines can be read if all labels without a dot can. -/
theorem readable_of_mem_lowerLines {lines : List Line} (h : Sound scope program lines)
    (hlegible : ∀ l, Available scope program l → l.Legible)
    (hlines : ∀ line ∈ lines, line ∈ program.lines) (st : LoweringState) :
    ∀ i ∈ ((lowerLines scope lines).run st).1, i.Readable := by
  induction lines generalizing st with
  | nil =>
    intro i hi
    cases hi
  | cons line rest ih =>
    rcases List.forall_mem_cons.1 h with ⟨⟨hnames, htarget⟩, hrest⟩
    rcases List.forall_mem_cons.1 hlines with ⟨hline, hothers⟩
    have hrefers := refers_lowerStmt hnames htarget st
    have hbody : ∀ i ∈ ((lowerStmt scope line.stmt).run st).1, i.Readable := by
      intro item hitem
      cases hrefers.form item hitem with
      | instr hconstants =>
        refine ⟨fun l hl => ?_, hconstants⟩
        rcases hrefers.known l (List.mem_flatMap.2 ⟨_, hitem, hl⟩) with havailable | ⟨s, rfl, -⟩
        · exact hlegible l havailable
        · trivial
      | dot s => trivial
    have hnumber : (Label.line line.number).Legible := hlegible _ (List.mem_map_of_mem hline)
    have hend : ∀ i ∈ [Item.label (.inner .lineEnd)], i.Readable := by decide
    rw [run_lowerLines_cons, run_lowerLine, List.forall_mem_append, List.forall_mem_cons,
      List.forall_mem_cons, List.forall_mem_append]
    exact ⟨⟨trivial, hnumber, hbody, hend⟩, ih hrest hothers _⟩

end Lines

/-! ## Pools -/

section Pools

variable (scope : Scope)

theorem pool_operation (op : ArithOp) (st : LoweringState) :
    ((operation op).run st).2.pool = st.pool := by
  cases op <;> rfl

/-- The code of an expression gives its texts to the pool. -/
theorem pool_lowerExpr (e : Expr) (st : LoweringState) :
    ((lowerExpr scope e).run st).2.pool = st.pool.absorb e.texts := by
  induction e generalizing st with
  | binary op lhs rhs ihl ihr =>
    rw [lowerExpr, Lowering.run_bind, Lowering.run_bind, Lowering.run_bind, Expr.texts,
      absorb_append, ← ihl st, ← ihr]
    exact pool_operation op _
  | _ => rfl

/-- The code of an assignment gives its text to the pool. -/
theorem pool_lowerAssign (name : String) (value : Expr) (st : LoweringState) :
    ((lowerAssign scope name value).run st).2.pool = st.pool.absorb value.texts := by
  cases value with
  | name x =>
    simp only [lowerAssign]
    split <;> rfl
  | binary op lhs rhs => exact pool_lowerExpr scope (.binary op lhs rhs) st
  | _ => rfl

/-- The code that prints an item gives its text to the pool. -/
theorem pool_lowerItem (e : Expr) (st : LoweringState) :
    ((lowerItem scope e).run st).2.pool = st.pool.absorb e.texts := by
  cases e with
  | binary op lhs rhs => exact pool_lowerExpr scope (.binary op lhs rhs) st
  | _ => rfl

/-- The code that prints items gives their texts to the pool. -/
theorem pool_lowerItems (items : List Expr) (st : LoweringState) :
    ((lowerItems scope items).run st).2.pool = st.pool.absorb (items.flatMap Expr.texts) := by
  induction items generalizing st with
  | nil => rfl
  | cons e rest ih =>
    rw [lowerItems, Lowering.run_bind, Lowering.run_bind, List.flatMap_cons, absorb_append,
      ← pool_lowerItem, ← ih]
    rfl

/-- The code of a statement gives its texts to the pool. -/
theorem pool_lowerStmt (s : Stmt) (st : LoweringState) :
    ((lowerStmt scope s).run st).2.pool = st.pool.absorb s.texts := by
  induction s generalizing st with
  | assign name value => exact pool_lowerAssign scope name value st
  | print items => exact pool_lowerItems scope items st
  | cond lhs op rhs body ih =>
    rw [lowerStmt, Lowering.run_bind, Lowering.run_bind, Lowering.run_bind, Stmt.texts,
      absorb_append, absorb_append, ← pool_lowerExpr scope lhs, ← pool_lowerExpr scope rhs, ← ih]
    rfl
  | _ => rfl

/-- The code of lines gives their texts to the pool. -/
theorem pool_lowerLines (lines : List Line) (st : LoweringState) :
    ((lowerLines scope lines).run st).2.pool =
      st.pool.absorb (lines.flatMap fun line => line.stmt.texts) := by
  induction lines generalizing st with
  | nil => rfl
  | cons line rest ih =>
    rw [lowerLines, Lowering.run_bind, Lowering.run_bind, List.flatMap_cons, absorb_append,
      ← pool_lowerStmt scope, ← ih]
    rfl

end Pools

end LineBasic
