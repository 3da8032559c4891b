import LineBasic.Proofs.Check.Typing
import LineBasic.Proofs.Check.Violation
import LineBasic.Proofs.Grammar.Canonical
import LineBasic.Toolchain

/-!
# What is known of checked programs

A text that is accepted has passed the parser and both checks.  Each of them leaves a guarantee
behind, and what runs or translates a program relies on these guarantees alone.

Main definitions:

- `Checked.WellFormed`: the guarantees.
- `RefusedWith`: the error of the first stage that a text does not pass.

Main results:

- `Checked.wellFormed_of_check`: every accepted text gives a well-formed program.
- `check_eq_error_iff`: texts are refused stage by stage.
-/

namespace LineBasic

/-- The form of the tree, the rules on numbers and jumps, and the rules on types. -/
structure Checked.WellFormed (checked : Checked) : Prop where
  canonical : ∀ line ∈ checked.program.lines, line.stmt.IsCanonical
  numbered : checked.program.WellNumbered
  isGlobal : checked.scope.IsGlobal
  typed : ∀ line ∈ checked.program.lines, line.stmt.WellTyped checked.scope
  declared : ∀ symbol ∈ checked.scope.symbols,
    ∃ line ∈ checked.program.lines, line.stmt.Declares symbol

/-- A result that passes through an error is there without the error as well. -/
theorem except_mapError_eq_ok_iff {ε ε' α : Type} {f : ε → ε'} {x : Except ε α} {a : α} :
    x.mapError f = .ok a ↔ x = .ok a := by
  cases x with
  | ok v => constructor <;> intro h <;> cases h <;> rfl
  | error e => constructor <;> intro h <;> cases h

/-- An error that is renamed comes from an error. -/
theorem except_mapError_eq_error_iff {ε ε' α : Type} {f : ε → ε'} {x : Except ε α} {e' : ε'} :
    x.mapError f = .error e' ↔ ∃ e, x = .error e ∧ f e = e' := by
  cases x with
  | ok v => simp [Except.mapError]
  | error e => simp [Except.mapError]

/-- An accepted text is parsed. -/
theorem Checked.parse_of_check {source : String} {checked : Checked}
    (h : check source = .ok checked) : Program.parse source = .ok checked.program := by
  rcases except_bind_eq_ok_iff.1 h with ⟨program, hparse, h⟩
  rcases except_bind_eq_ok_iff.1 h with ⟨_, -, h⟩
  rcases except_bind_eq_ok_iff.1 h with ⟨scope, -, h⟩
  cases h
  exact except_mapError_eq_ok_iff.1 hparse

/-- Every accepted text gives a well-formed program. -/
theorem Checked.wellFormed_of_check {source : String} {checked : Checked}
    (h : check source = .ok checked) : checked.WellFormed := by
  have hparse := Checked.parse_of_check h
  rcases except_bind_eq_ok_iff.1 h with ⟨program, -, h⟩
  rcases except_bind_eq_ok_iff.1 h with ⟨_, hnumbering, h⟩
  rcases except_bind_eq_ok_iff.1 h with ⟨scope, hscope, h⟩
  cases h
  obtain ⟨hglobal, htyped, hdeclared⟩ :=
    Program.wellTyped_of_scope (except_mapError_eq_ok_iff.1 hscope)
  exact ⟨Program.isCanonical_of_parse hparse,
    Program.wellNumbered_of_checkNumbering (except_mapError_eq_ok_iff.1 hnumbering),
    hglobal, htyped, hdeclared⟩

/-! ## Refused texts -/

/-- A text is refused with the error of the first stage that it does not pass: it must be a program,
then its lines and jumps must be in order, then its declarations and types must fit. -/
inductive RefusedWith (source : String) : SourceError → Prop
  | parse {e : ParseError} (h : Program.parse source = .error e) : RefusedWith source (.parse e)
  | structural {program : Program} {e : StructuralError}
      (hparse : Program.parse source = .ok program) (h : program.checkNumbering = .error e) :
      RefusedWith source (.structural e)
  | typing {program : Program} {e : TypeError} (hparse : Program.parse source = .ok program)
      (hnumbering : program.checkNumbering = .ok ()) (h : program.scope = .error e) :
      RefusedWith source (.typing e)

/-- Checks refuse texts with the error of the first stage that they do not pass. -/
theorem check_eq_error_iff {source : String} {e : SourceError} :
    check source = .error e ↔ RefusedWith source e := by
  constructor
  · intro h
    rcases except_bind_eq_error_iff.1 h with h | ⟨program, hparse, h⟩
    · obtain ⟨e, herror, rfl⟩ := except_mapError_eq_error_iff.1 h
      exact .parse herror
    rw [except_mapError_eq_ok_iff] at hparse
    rcases except_bind_eq_error_iff.1 h with h | ⟨_, hnumbering, h⟩
    · obtain ⟨e, herror, rfl⟩ := except_mapError_eq_error_iff.1 h
      exact .structural hparse herror
    rw [except_mapError_eq_ok_iff] at hnumbering
    rcases except_bind_eq_error_iff.1 h with h | ⟨scope, -, h⟩
    · obtain ⟨e, herror, rfl⟩ := except_mapError_eq_error_iff.1 h
      exact .typing hparse hnumbering herror
    · cases h
  · intro h
    refine except_bind_eq_error_iff.2 ?_
    cases h with
    | parse h => exact .inl (except_mapError_eq_error_iff.2 ⟨_, h, rfl⟩)
    | structural hparse h =>
      refine .inr ⟨_, except_mapError_eq_ok_iff.2 hparse, except_bind_eq_error_iff.2 (.inl ?_)⟩
      exact except_mapError_eq_error_iff.2 ⟨_, h, rfl⟩
    | typing hparse hnumbering h =>
      refine .inr ⟨_, except_mapError_eq_ok_iff.2 hparse, except_bind_eq_error_iff.2 (.inr
        ⟨_, except_mapError_eq_ok_iff.2 hnumbering, except_bind_eq_error_iff.2 (.inl ?_)⟩)⟩
      exact except_mapError_eq_error_iff.2 ⟨_, h, rfl⟩

/-- The outline of a text is that of its program. -/
theorem outline_eq (source : String) :
    outline source = (check source).map fun checked => checked.program.outline := by
  rw [outline]
  cases check source <;> rfl

/-- The assembly text of a text is that of its program. -/
theorem assemblyText_eq (source : String) :
    assemblyText source = (check source).map fun checked =>
      Assembly.render (Image.ofProgram checked.scope checked.program).listing := by
  rw [assemblyText, assemble]
  cases check source <;> rfl

end LineBasic
