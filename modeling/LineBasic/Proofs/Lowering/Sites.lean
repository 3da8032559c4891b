import LineBasic.Proofs.Lowering.Closed
import LineBasic.Proofs.Lowering.Lines
import LineBasic.Proofs.Processor.InputOutput
import LineBasic.Proofs.Processor.Routines
import LineBasic.Proofs.Processor.StringToNumber

/-!
# Where statements and routines stand

Each statement of a program has its code at one place of the listing, be it the statement of a line
or what such a statement does on a condition, and each routine has its code behind all of them.

Main definitions:

- `Checked.Site`: a statement of a program and the place of its code.
- `Stmt.calls` and `Checked.Region`: the places that the execution of a statement is at.

Main results:

- `exists_textRoutine`: the routines that read and print texts.
- `Checked.Site.block`: the code of a statement at its place.
- `Checked.Site.not_region_end`: the end of a statement is none of its own places.
-/

namespace LineBasic

open Assembly

/-! ## Routines -/

section Routines

variable {checked : Checked}

/-- A routine of a listing stands behind all that the program adds to it. -/
theorem exists_routineAt (h : checked.WellFormed) {r : Routine} {front body behind : List Item}
    (hroutines : routines = front ++ .label (.routine r) :: (body ++ behind))
    (hfront : ∀ name ∈ definedNames (some .scratch) front, name.front ≠ .routine r)
    (hinner : ∀ i ∈ body, i.defined? = none ∨ i.spot?.isSome = true)
    (hnodup : (spots body).Nodup) : ∃ p, RoutineAt checked.image.listing r p body := by
  have hlisting : checked.image.listing =
      (preamble ++ (checked.image.code ++ (checked.image.storage ++ front))) ++
        .label (.routine r) :: (body ++ behind) := by
    rw [Image.listing_eq_storage, hroutines]
    simp only [List.append_assoc]
  refine ⟨_, .of_split hlisting (fun name hname => ?_) (.of_forall hinner) hnodup⟩
  have hpreamble : definedNames none preamble = [] := rfl
  have howner : ownerBehind none preamble = none := rfl
  rw [← mem_definedNames, definedNames_append, hpreamble, howner, List.nil_append,
    definedNames_append, definedNames_append, ownerBehind_storage,
    definedNames_eq_of_outer (defined?_ne_inner_of_mem_storage h.type_ne_void),
    filterMap_defined?_storage h.type_ne_void, List.mem_append, List.mem_append] at hname
  rcases hname with hcode | hstored | hearlier
  · intro heq
    have hkind := kind_front_of_mem_code hcode
    rw [heq] at hkind
    cases hkind
  · rcases List.mem_map.1 hstored with ⟨l, hl, rfl⟩
    rintro rfl
    rcases mem_storageLabels_iff.1 hl with ⟨s, -, heq⟩ | ⟨k, -, heq⟩ | heq <;> cases heq
  · exact hfront name hearlier

/-- The routines that read and print texts, with their code. -/
def textRoutines : List (Routine × List Item) :=
  [(.readString, readStringBody), (.newLine, newLineBody), (.stringToNumber, stringToNumberBody),
    (.printString, printStringBody)]

/-- The routines that read and print texts stand in every listing. -/
theorem exists_textRoutine (h : checked.WellFormed) {r : Routine} {body : List Item}
    (hr : (r, body) ∈ textRoutines) : ∃ p, RoutineAt checked.image.listing r p body := by
  have hread : routines = routines.take 7 ++
      .label (.routine .readString) :: (readStringBody ++ routines.drop 39) := rfl
  have hline : routines = routines.take 41 ++
      .label (.routine .newLine) :: (newLineBody ++ routines.drop 52) := rfl
  have hnumber : routines = routines.take 56 ++
      .label (.routine .stringToNumber) :: (stringToNumberBody ++ routines.drop 129) := by
    decide +kernel
  have hprint : routines = routines.take 168 ++
      .label (.routine .printString) :: (printStringBody ++ routines.drop 186) := by
    decide +kernel
  simp only [textRoutines, List.mem_cons, List.not_mem_nil, or_false, Prod.mk.injEq] at hr
  rcases hr with ⟨rfl, rfl⟩ | ⟨rfl, rfl⟩ | ⟨rfl, rfl⟩ | ⟨rfl, rfl⟩
  · exact exists_routineAt h hread (by decide) (by decide) (by decide)
  · exact exists_routineAt h hline (by decide) (by decide) (by decide)
  · exact exists_routineAt h hnumber (by decide +kernel) (by decide) (by decide)
  · exact exists_routineAt h hprint (by decide +kernel) (by decide) (by decide)

end Routines

/-! ## Statements -/

/-- The code of the test of a condition. -/
def testCode (scope : Scope) (lhs : Expr) (op : Relop) (rhs : Expr) (st : LoweringState) :
    List Item :=
  ((lowerExpr scope lhs).run st).1 ++
    ((lowerExpr scope rhs).run ((lowerExpr scope lhs).run st).2).1 ++ comparison op

/-- What the generation has numbered behind the test of a condition. -/
def testState (scope : Scope) (lhs rhs : Expr) (st : LoweringState) : LoweringState :=
  ((lowerExpr scope rhs).run ((lowerExpr scope lhs).run st).2).2

/-- The code of a condition is that of its test and that of its body. -/
theorem run_lowerStmt_cond (scope : Scope) (lhs : Expr) (op : Relop) (rhs : Expr) (body : Stmt)
    (st : LoweringState) :
    (lowerStmt scope (.cond lhs op rhs body)).run st =
      (testCode scope lhs op rhs st ++ ((lowerStmt scope body).run (testState scope lhs rhs st)).1,
        ((lowerStmt scope body).run (testState scope lhs rhs st)).2) :=
  rfl

/-- A statement of a program, with what the generation has numbered in front of it and the place
where its code begins. -/
inductive Checked.Site (checked : Checked) : Stmt → LoweringState → Nat → Prop
  /-- The statement of a line. -/
  | line {i : Nat} {line : Line} (h : checked.program.lines[i]? = some line) :
      Site checked line.stmt (stateBefore checked.scope checked.program.lines i)
        (linePosition checked.scope checked.program i + 1)
  /-- What a statement does on a condition. -/
  | body {lhs rhs : Expr} {op : Relop} {body : Stmt} {st : LoweringState} {q : Nat}
      (h : Site checked (.cond lhs op rhs body) st q) :
      Site checked body (testState checked.scope lhs rhs st)
        (q + (testCode checked.scope lhs op rhs st).length)

/-- The code of a statement of a program. -/
def Checked.codeOf (checked : Checked) (s : Stmt) (st : LoweringState) : List Item :=
  ((lowerStmt checked.scope s).run st).1

/-- The place behind the code of a statement. -/
def Checked.endOf (checked : Checked) (s : Stmt) (st : LoweringState) (q : Nat) : Nat :=
  q + (checked.codeOf s st).length

namespace Checked.Site

variable {checked : Checked} {s : Stmt} {st : LoweringState} {q : Nat}

/-- Statements of checked programs are typed. -/
theorem wellTyped (hwell : checked.WellFormed) (h : checked.Site s st q) :
    s.WellTyped checked.scope := by
  induction h with
  | line h => exact hwell.typed _ (List.mem_of_getElem? h)
  | body _ ih => exact ih.2

/-- Statements of checked programs are canonical. -/
theorem isCanonical (hwell : checked.WellFormed) (h : checked.Site s st q) : s.IsCanonical := by
  induction h with
  | line h => exact hwell.canonical _ (List.mem_of_getElem? h)
  | body _ ih => exact ih.2.2

/-- The code of a statement stands at its place. -/
theorem placed (hwell : checked.WellFormed) (h : checked.Site s st q) :
    Placed checked.image.listing q (checked.codeOf s st) := by
  induction h with
  | line h => exact (placed_lineBody hwell.numbered h).left
  | body _ ih =>
    rw [codeOf, run_lowerStmt_cond] at ih
    exact ih.right

/-- The code of a statement belongs to a line, and so does the place behind it. -/
theorem owned (h : checked.Site s st q) :
    ∃ number, ∀ k ≤ (checked.codeOf s st).length + 1,
      ownerAt checked.image.listing (q + k) = some (.line number) := by
  induction h with
  | @line i line h =>
    have hsplit : ∃ behind, checked.image.listing = _ := exists_listing_eq h
    rcases hsplit with ⟨behind, hlisting⟩
    have hinner := onlyInner_lowerStmt checked.scope line
      (stateBefore checked.scope checked.program.lines i)
    refine ⟨line.number, fun k hk => ?_⟩
    have howned := ownerAt_of_label hlisting (fun s heq => by cases heq) hinner
      (k := k) (by rw [List.length_append]; exact hk)
    rw [← howned, linePosition]
    simp only [List.length_append, List.length_singleton]
  | body _ ih =>
    rcases ih with ⟨number, hnumber⟩
    refine ⟨number, fun k hk => ?_⟩
    rw [Nat.add_assoc]
    refine hnumber _ ?_
    rw [codeOf, run_lowerStmt_cond, List.length_append]
    rw [codeOf] at hk
    omega

/-- The texts that the generation has numbered behind a statement are stored. -/
theorem pool_extends (h : checked.Site s st q) :
    ∃ more, checked.image.pool.texts =
      ((lowerStmt checked.scope s).run st).2.pool.texts ++ more := by
  induction h with
  | @line i line h =>
    obtain ⟨more, hmore⟩ := exists_pool_eq checked.scope checked.program (i + 1)
    rw [stateBefore_succ h] at hmore
    exact ⟨more, hmore⟩
  | body _ ih =>
    rw [run_lowerStmt_cond] at ih
    exact ih

end Checked.Site

/-! ## Places of an execution -/

/-- The routines that a statement calls to read its input. -/
def Stmt.calls : Stmt → List Routine
  | .input _ => [.readString, .newLine, .stringToNumber]
  | _ => []

/-- The places of the code of a statement, and of the routines that it calls. -/
def Checked.Region (checked : Checked) (s : Stmt) (st : LoweringState) (q r : Nat) : Prop :=
  (q ≤ r ∧ r < checked.endOf s st q) ∨
    ∃ routine ∈ s.calls, InRoutine checked.image.listing routine r

section Region

variable {checked : Checked} {s : Stmt} {st : LoweringState} {q : Nat}

/-- The code of a statement stands inside its region. -/
theorem Checked.Site.block (hwell : checked.WellFormed) (h : checked.Site s st q) :
    Block checked.image.listing (checked.Region s st q) q (checked.codeOf s st) where
  placed := h.placed hwell
  inside_of_lt j hj := by
    refine .inl ⟨Nat.le_add_right _ _, ?_⟩
    rw [Checked.endOf]
    omega

/-- The place behind a statement is outside its region. -/
theorem Checked.Site.not_region_end (h : checked.Site s st q) :
    ¬ checked.Region s st q (checked.endOf s st q) := by
  rintro (⟨-, hlt⟩ | ⟨routine, -, hroutine⟩)
  · exact Nat.lt_irrefl _ hlt
  · rcases h.owned with ⟨number, hnumber⟩
    have howned := hnumber _ (Nat.le_refl _)
    rw [InRoutine, Checked.endOf, Nat.add_assoc, howned] at hroutine
    cases hroutine

/-- A routine that a statement calls stands inside its region. -/
theorem Checked.region_of_inRoutine {routine : Routine} (hcalls : routine ∈ s.calls) (k : Nat)
    (hk : InRoutine checked.image.listing routine k) : checked.Region s st q k :=
  .inr ⟨routine, hcalls, hk⟩

end Region

end LineBasic
