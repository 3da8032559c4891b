import LineBasic.Lowering.Statement
import LineBasic.Proofs.Lowering.LiteralPool
import LineBasic.Proofs.Processor.Labels

/-!
# The shape of generated code

The code of expressions and statements defines dot labels only, one for each division, with the
counts in order; texts that are in the pool stay where they are.

Main definition:

- `Emits`: code with its dot labels, between two states of the generation.

Main results:

- `emits_lowerExpr` and `exists_emits_lowerStmt`: the code of expressions and statements.
- `nodup_spots_lowerStmt`: no dot label is defined twice in the code of a statement.
-/

namespace LineBasic

open Assembly

/-- A step of the generation goes on with the state that the one before left. -/
theorem Lowering.run_bind {α β : Type} (x : Lowering α) (f : α → Lowering β)
    (st : LoweringState) : (x >>= f).run st = (f (x.run st).1).run (x.run st).2 :=
  rfl

/-- Code that defines one dot label for each new division, with `extra` ones behind them. -/
structure Emits (extra : List Spot) (st : LoweringState) (items : List Item)
    (st' : LoweringState) : Prop where
  onlyInner : OnlyInner items
  divisions_le : st.divisions ≤ st'.divisions
  spots_eq : spots items =
    (List.range' st.divisions (st'.divisions - st.divisions)).map .division ++ extra
  pool_extends : ∃ more, st'.pool.texts = st.pool.texts ++ more

namespace Emits

/-- Instructions define no labels. -/
theorem of_code (st : LoweringState) (instructions : List Instr) :
    Emits [] st (code instructions) st where
  onlyInner := onlyInner_code instructions
  divisions_le := Nat.le_refl _
  spots_eq := by simp
  pool_extends := ⟨[], by simp⟩

/-- Code behind code. -/
theorem append {extra : List Spot} {st m st' : LoweringState} {xs ys : List Item}
    (hxs : Emits [] st xs m) (hys : Emits extra m ys st') : Emits extra st (xs ++ ys) st' where
  onlyInner := hxs.onlyInner.append hys.onlyInner
  divisions_le := Nat.le_trans hxs.divisions_le hys.divisions_le
  spots_eq := by
    have hfirst := hxs.divisions_le
    have hsecond := hys.divisions_le
    have hsum : st'.divisions - st.divisions =
        (m.divisions - st.divisions) + (st'.divisions - m.divisions) := by omega
    have hstart : m.divisions = st.divisions + 1 * (m.divisions - st.divisions) := by omega
    rw [spots_append, hxs.spots_eq, hys.spots_eq, hsum, ← List.range'_append, ← hstart]
    simp
  pool_extends := by
    rcases hxs.pool_extends with ⟨more, hmore⟩
    rcases hys.pool_extends with ⟨rest, hrest⟩
    exact ⟨more ++ rest, by rw [hrest, hmore, List.append_assoc]⟩

/-- Instructions behind code. -/
theorem append_code {st st' : LoweringState} {xs : List Item} (h : Emits [] st xs st')
    (instructions : List Instr) : Emits [] st (xs ++ code instructions) st' :=
  h.append (of_code st' instructions)

/-- A dot label behind code. -/
theorem append_inner {extra : List Spot} {st st' : LoweringState} {xs : List Item}
    (h : Emits extra st xs st') (s : Spot) :
    Emits (extra ++ [s]) st (xs ++ [.label (.inner s)]) st' where
  onlyInner := h.onlyInner.append (onlyInner_nil.cons_inner s)
  divisions_le := h.divisions_le
  spots_eq := by
    rw [spots_append, h.spots_eq, List.append_assoc]
    rfl
  pool_extends := h.pool_extends

/-- No dot label is defined twice, if the extra ones are none of divisions. -/
theorem nodup_spots {extra : List Spot} {st st' : LoweringState} {items : List Item}
    (h : Emits extra st items st') (hextra : extra.Nodup)
    (hother : ∀ s ∈ extra, ∀ count, s ≠ .division count) : (spots items).Nodup := by
  rw [h.spots_eq, List.nodup_append]
  refine ⟨?_, hextra, ?_⟩
  · rw [List.Nodup, List.pairwise_map]
    exact (List.nodup_range' 1 Nat.one_pos).imp fun hne heq => hne (Spot.division.inj heq)
  · intro s hs t ht heq
    rcases List.mem_map.1 hs with ⟨count, -, rfl⟩
    exact hother t ht count heq.symm

end Emits

/-! ## Texts -/

/-- A use of a text defines no labels. -/
theorem emits_literal (st : LoweringState) (text : String) (instructions : List Instr) :
    Emits [] st (code instructions) ((Lowering.literal text).run st).2 where
  onlyInner := onlyInner_code instructions
  divisions_le := Nat.le_refl _
  spots_eq := by
    change spots (code instructions) =
      (List.range' st.divisions (st.divisions - st.divisions)).map _ ++ _
    simp
  pool_extends := (st.pool.intern_spec text).2

/-! ## Expressions -/

/-- The code of an operation defines a label if it is a division. -/
theorem emits_operation (op : ArithOp) (st : LoweringState) :
    Emits [] st ((operation op).run st).1 ((operation op).run st).2 := by
  cases op with
  | add => exact .of_code st _
  | sub => exact .of_code st _
  | mul => exact .of_code st _
  | div =>
    constructor
    · exact (onlyInner_code _).append ((onlyInner_code _).cons_inner _)
    · exact Nat.le_succ _
    · have hcount : (st.divisions + 1) - st.divisions = 1 := by omega
      change spots (divisionCode (.division st.divisions)) =
        (List.range' st.divisions ((st.divisions + 1) - st.divisions)).map _ ++ _
      rw [hcount]
      simp [divisionCode, List.range']
    · exact ⟨[], (List.append_nil _).symm⟩

/-- The code of an expression defines a label for each division. -/
theorem emits_lowerExpr (scope : Scope) (e : Expr) (st : LoweringState) :
    Emits [] st ((lowerExpr scope e).run st).1 ((lowerExpr scope e).run st).2 := by
  induction e generalizing st with
  | number n => exact .of_code st _
  | text content => exact emits_literal st content _
  | name x => exact .of_code st _
  | binary op lhs rhs ihl ihr =>
    rw [lowerExpr, Lowering.run_bind, Lowering.run_bind, Lowering.run_bind]
    exact ((ihl st).append (ihr _)).append (emits_operation op _)

/-! ## Statements -/

/-- The code of resets defines no labels. -/
theorem emits_flatMap_lowerReset (scope : Scope) (names : List String) (st : LoweringState) :
    Emits [] st (names.flatMap (lowerReset scope)) st := by
  induction names with
  | nil => exact .of_code st []
  | cons x rest ih =>
    have hfirst : Emits [] st (lowerReset scope x) st := by
      unfold lowerReset
      split
      · exact .of_code st _
      · exact .of_code st _
    rw [List.flatMap_cons]
    exact hfirst.append ih

/-- The code of an assignment defines a label for each division. -/
theorem emits_lowerAssign (scope : Scope) (name : String) (value : Expr) (st : LoweringState) :
    Emits [] st ((lowerAssign scope name value).run st).1
      ((lowerAssign scope name value).run st).2 := by
  cases value with
  | number n => exact .of_code st _
  | text content => exact emits_literal st content _
  | name x =>
    simp only [lowerAssign]
    split
    · exact .of_code st _
    · exact .of_code st _
  | binary op lhs rhs =>
    rw [lowerAssign, Lowering.run_bind]
    exact (emits_lowerExpr scope (.binary op lhs rhs) st).append_code _

/-- The code of an item defines a label for each division. -/
theorem emits_lowerItem (scope : Scope) (e : Expr) (st : LoweringState) :
    Emits [] st ((lowerItem scope e).run st).1 ((lowerItem scope e).run st).2 := by
  cases e with
  | number n => exact .of_code st _
  | text content => exact emits_literal st content _
  | name x => exact .of_code st _
  | binary op lhs rhs =>
    rw [lowerItem, Lowering.run_bind]
    exact (emits_lowerExpr scope (.binary op lhs rhs) st).append_code _

/-- The code of items defines a label for each division. -/
theorem emits_lowerItems (scope : Scope) (items : List Expr) (st : LoweringState) :
    Emits [] st ((lowerItems scope items).run st).1 ((lowerItems scope items).run st).2 := by
  induction items generalizing st with
  | nil => exact .of_code st []
  | cons e rest ih =>
    rw [lowerItems, Lowering.run_bind, Lowering.run_bind]
    exact (emits_lowerItem scope e st).append (ih _)

/-- The code of a statement defines a label for each division, and one for a number that is read
may follow. -/
theorem exists_emits_lowerStmt (scope : Scope) (s : Stmt) (st : LoweringState) :
    ∃ extra, (extra = [] ∨ extra = [.readNumber]) ∧
      Emits extra st ((lowerStmt scope s).run st).1 ((lowerStmt scope s).run st).2 := by
  induction s generalizing st with
  | declare type names =>
    exact ⟨[], .inl rfl, emits_flatMap_lowerReset scope names st⟩
  | assign name value => exact ⟨[], .inl rfl, emits_lowerAssign scope name value st⟩
  | input name =>
    by_cases hstring : scope.isString name = true
    · refine ⟨[], .inl rfl, ?_⟩
      change Emits [] st (lowerInput scope name) st
      rw [lowerInput, if_pos hstring]
      exact .of_code st _
    · refine ⟨[.readNumber], .inr rfl, ?_⟩
      change Emits [.readNumber] st (lowerInput scope name) st
      rw [lowerInput, if_neg hstring]
      constructor
      · exact ((onlyInner_code _).append (onlyInner_code _)).cons_inner _
      · exact Nat.le_refl _
      · simp [readLine]
      · exact ⟨[], (List.append_nil _).symm⟩
  | print items =>
    refine ⟨[], .inl rfl, ?_⟩
    rw [lowerStmt, Lowering.run_bind]
    exact (emits_lowerItems scope items st).append_code _
  | cond lhs op rhs body ih =>
    rw [lowerStmt, Lowering.run_bind, Lowering.run_bind, Lowering.run_bind]
    have hsides := ((emits_lowerExpr scope lhs st).append
      (emits_lowerExpr scope rhs _)).append_code
        [.pop .bx, .pop .ax, .cmp .ax .bx, .jump op.negation (.inner .lineEnd)]
    obtain ⟨extra, hextra, hbody⟩ :=
      ih ((lowerExpr scope rhs).run ((lowerExpr scope lhs).run st).2).2
    exact ⟨extra, hextra, hsides.append hbody⟩
  | goto target => exact ⟨[], .inl rfl, .of_code st _⟩
  | gosub target => exact ⟨[], .inl rfl, .of_code st _⟩
  | ret => exact ⟨[], .inl rfl, .of_code st _⟩
  | stop => exact ⟨[], .inl rfl, .of_code st _⟩

/-- In the code of a statement with the end of its line behind it, no dot label is defined
twice. -/
theorem nodup_spots_lowerStmt (scope : Scope) (s : Stmt) (st : LoweringState) :
    (spots (((lowerStmt scope s).run st).1 ++ [.label (.inner .lineEnd)])).Nodup := by
  rcases exists_emits_lowerStmt scope s st with ⟨extra, hextra, hemits⟩
  refine (hemits.append_inner .lineEnd).nodup_spots ?_ ?_
  · rcases hextra with rfl | rfl <;> decide
  · rcases hextra with rfl | rfl <;> simp

/-- Lines number texts behind those that are numbered already. -/
theorem pool_extends_lowerLines (scope : Scope) (lines : List Line) (st : LoweringState) :
    ∃ more, ((lowerLines scope lines).run st).2.pool.texts = st.pool.texts ++ more := by
  induction lines generalizing st with
  | nil => exact ⟨[], (List.append_nil _).symm⟩
  | cons line rest ih =>
    rcases exists_emits_lowerStmt scope line.stmt st with ⟨extra, -, hemits⟩
    rcases hemits.pool_extends with ⟨here, hhere⟩
    rcases ih ((lowerStmt scope line.stmt).run st).2 with ⟨later, hlater⟩
    exact ⟨here ++ later, by rw [← List.append_assoc, ← hhere, ← hlater]; rfl⟩

end LineBasic
