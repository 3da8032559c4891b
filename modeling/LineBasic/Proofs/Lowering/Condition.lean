import LineBasic.Proofs.Lowering.Expression

/-!
# Code of conditions

The code of a condition compares both sides and jumps to the end of its line unless the relation
holds.

Main result:

- `traps_or_tests_condition`: where the code of a condition leads to, unless it comes to a division
  that cannot be made.
-/

namespace LineBasic

open Assembly Machine

variable {listing : List Item} {scope : Scope} {store : Store}

/-- The code that compares two numbers on the stack and jumps unless a relation holds. -/
def comparison (op : Relop) : List Item :=
  code [.pop .bx, .pop .ax, .cmp .ax .bx, .jump op.negation (.inner .lineEnd)]

/-- Control goes on behind a comparison if the relation holds, and else to the end of the line. -/
theorem reaches_comparison {op : Relop} {q target : Nat} {l r : Int16} {rest : List Word}
    (hplaced : Placed listing q (comparison op))
    (hresolve : resolve? listing (q + 3) (.inner .lineEnd) = some target) {p : Processor}
    (hcontrol : p.control = .running q) (hstack : p.stack = .number r :: .number l :: rest) :
    Reaches listing p [] (if op.holds (compare l r) then q + 4 else target) rest := by
  rcases p with ⟨control, registers, flags, cells, stack⟩
  cases hcontrol
  cases hstack
  have hjump : jumpTarget? listing (q + 3) (.inner .lineEnd) = some (.running target) := by
    simp only [jumpTarget?, hresolve, Option.map_some]
  have hloaded := steps_pop_operands (hplaced.get 0 _ rfl) (hplaced.get 1 _ rfl) registers flags
    cells (.number l) (.number r) rest
  have hleft : ∀ p : Processor, p.registers = (registers.set .bx (.number r)).set .ax (.number l) →
      p.readNumber? .ax = some l := by
    rintro ⟨_, _, _, _, _⟩ rfl
    rfl
  have hright : ∀ p : Processor, p.registers = (registers.set .bx (.number r)).set .ax (.number l) →
      p.readNumber? .bx = some r := by
    rintro ⟨_, _, _, _, _⟩ rfl
    rfl
  obtain ⟨flags', hcompared⟩ := exists_steps_compare (hplaced.get 2 _ rfl) (hplaced.get 3 _ rfl)
    hleft hright (holds?_negation op l r) hjump flags cells rest
  refine ⟨_, _, hloaded.trans hcompared, ?_, rfl, rfl⟩
  cases op.holds (compare l r) <;> rfl

/-- Where the code of a condition leads to: behind itself or to the end of the line, or to the
routine that reports the fault of a side. -/
def Tests (listing : List Item) (p : Processor) (behind target : Nat) (op : Relop) :
    Except Fault Int16 → Except Fault Int16 → Prop
  | .ok l, .ok r =>
    Reaches listing p [] (if op.holds (compare l r) then behind else target) p.stack
  | .error fault, _ => ∃ r, fault.routine? = some r ∧ Hands listing p [] r
  | .ok _, .error fault => ∃ r, fault.routine? = some r ∧ Hands listing p [] r

/-- The code of both sides and their comparison leads there, unless it comes to a division that
cannot be made. -/
theorem traps_or_tests_condition (hglobal : scope.IsGlobal) (hstore : store.symbols = scope.symbols)
    {lhs rhs : Expr} (hlarith : lhs.IsArithmetic) (hrarith : rhs.IsArithmetic)
    (hltype : lhs.type scope = .ok .integer) (hrtype : rhs.type scope = .ok .integer)
    {op : Relop} {st m : LoweringState} {q target : Nat}
    (hplaced : Placed listing q (((lowerExpr scope lhs).run st).1 ++
      ((lowerExpr scope rhs).run m).1 ++ comparison op))
    (hresolve : ∀ k < (((lowerExpr scope lhs).run st).1 ++ ((lowerExpr scope rhs).run m).1 ++
      comparison op).length, resolve? listing (q + k) (.inner .lineEnd) = some target)
    {p : Processor} (hcontrol : p.control = .running q) (hmirrors : Mirrors store p.cells) :
    SidesDivide store (-32768) 1 lhs rhs ∧ Traps listing p [] ∨
      ¬ SidesDivide store (-32768) 1 lhs rhs ∧
        Tests listing p (q + (((lowerExpr scope lhs).run st).1 ++ ((lowerExpr scope rhs).run m).1 ++
          comparison op).length) target op (evalNumber store lhs) (evalNumber store rhs) := by
  have hleft := traps_or_delivers_lowerExpr hglobal hstore hlarith hltype hplaced.left.left hcontrol
    hmirrors
  refine (traps_or_delivers_sides hleft fun m hmcontrol hmcells =>
    traps_or_delivers_lowerExpr hglobal hstore hrarith hrtype hplaced.left.right hmcontrol
      (hmcells ▸ hmirrors)).imp id (And.imp_right fun hboth => ?_)
  cases hl : evalNumber store lhs with
  | error fault =>
    rw [hl] at hboth
    exact hboth
  | ok l =>
    cases hr : evalNumber store rhs with
    | error fault =>
      rw [hl, hr] at hboth
      exact hboth
    | ok r =>
      have hlength : (((lowerExpr scope lhs).run st).1 ++ ((lowerExpr scope rhs).run m).1 ++
          comparison op).length =
          (((lowerExpr scope lhs).run st).1 ++ ((lowerExpr scope rhs).run m).1).length + 4 := by
        rw [List.length_append]
        rfl
      have hend := hresolve
        ((((lowerExpr scope lhs).run st).1 ++ ((lowerExpr scope rhs).run m).1).length + 3)
        (by omega)
      rw [hlength]
      rw [← Nat.add_assoc] at hend ⊢
      rw [hl, hr, Nat.add_assoc, ← List.length_append] at hboth
      refine hboth.trans fun n hncontrol _ hnstack => ?_
      exact reaches_comparison hplaced.right hend hncontrol hnstack

end LineBasic
