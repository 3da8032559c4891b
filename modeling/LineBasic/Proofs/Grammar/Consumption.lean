import LineBasic.Grammar.Statement
import LineBasic.Proofs.Grammar.Derivation
import LineBasic.Proofs.Sequencing

/-!
# What readers consume

A reader that succeeds has moved over some tokens, each of which was the current one before the
next was drawn.  `Consumes s ts t` says that moving over the tokens `ts` leads from the state `s`
to the state `t`.

Main definitions:

- `ReaderState.Consumes`: the moves over lists of tokens.
- `ReaderState.left`: a bound on the number of tokens that can still be moved over.

Main results:

- `ReaderState.consumes_append_iff`: moves can be split and joined.
- `Reader.run_eat`, `Reader.run_expect_eq_ok_iff`, `Reader.run_numberLiteral_eq_ok_iff`,
  `Reader.run_identifier_eq_ok_iff`: what the primitive readers move over.
-/

namespace LineBasic

namespace ReaderState

/-- Moving over the tokens of a list, none of which is the end of the text. -/
inductive Consumes : ReaderState → List Token → ReaderState → Prop where
  | nil (s : ReaderState) : Consumes s [] s
  | cons {s t u : ReaderState} {ts : List Token} : s.current.token ≠ .endOfInput →
      Reader.advance.run s = .ok () t → Consumes t ts u →
      Consumes s (s.current.token :: ts) u

/-- Moving over no token leads nowhere else. -/
@[simp] theorem consumes_nil_iff {s u : ReaderState} : Consumes s [] u ↔ u = s := by
  constructor
  · intro h
    cases h
    rfl
  · rintro rfl
    exact .nil _

/-- The first token moved over is the current one. -/
theorem consumes_cons_iff {s u : ReaderState} {t : Token} {ts : List Token} :
    Consumes s (t :: ts) u ↔
      s.current.token = t ∧ t ≠ .endOfInput ∧
        ∃ v, Reader.advance.run s = .ok () v ∧ Consumes v ts u := by
  constructor
  · intro h
    cases h with
    | cons hne hadv hrest => exact ⟨rfl, hne, _, hadv, hrest⟩
  · rintro ⟨rfl, hne, v, hadv, hrest⟩
    exact .cons hne hadv hrest

/-- Moves over two lists one after the other are a move over both. -/
theorem consumes_append_iff {s u : ReaderState} {ts us : List Token} :
    Consumes s (ts ++ us) u ↔ ∃ v, Consumes s ts v ∧ Consumes v us u := by
  induction ts generalizing s with
  | nil => simp
  | cons t ts ih =>
    simp only [List.cons_append, consumes_cons_iff, ih]
    constructor
    · rintro ⟨htok, hne, v, hadv, w, hts, hus⟩
      exact ⟨w, ⟨htok, hne, v, hadv, hts⟩, hus⟩
    · rintro ⟨w, ⟨htok, hne, v, hadv, hts⟩, hus⟩
      exact ⟨htok, hne, v, hadv, w, hts, hus⟩

/-- Moves can be joined. -/
theorem Consumes.append {s t u : ReaderState} {ts us : List Token} (h₁ : Consumes s ts t)
    (h₂ : Consumes t us u) : Consumes s (ts ++ us) u :=
  consumes_append_iff.2 ⟨t, h₁, h₂⟩

/-- A move over a single token is one step forward. -/
theorem consumes_singleton_iff {s u : ReaderState} {t : Token} :
    Consumes s [t] u ↔
      s.current.token = t ∧ t ≠ .endOfInput ∧ Reader.advance.run s = .ok () u := by
  simp [consumes_cons_iff]

/-! ## How far a state can move -/

/-- The number of tokens before the end of the text, if the stream delivers no fault. -/
def left (s : ReaderState) : Nat :=
  if s.current.token = .endOfInput then 0 else s.remaining + 1

/-- At most one token more than there are deliveries can be moved over. -/
theorem left_le (s : ReaderState) : s.left ≤ s.remaining + 1 := by
  unfold left
  split <;> omega

/-- No token is left where the text ends. -/
theorem left_eq_zero_iff {s : ReaderState} : s.left = 0 ↔ s.current.token = .endOfInput := by
  simp [left]

/-- One step forward leaves fewer tokens. -/
theorem left_lt_of_advance {s t : ReaderState} (hne : s.current.token ≠ .endOfInput)
    (h : Reader.advance.run s = .ok () t) : t.left < s.left := by
  have hs : s.left = s.remaining + 1 := by simp [left, hne]
  rw [hs]
  simp only [Reader.advance, EStateM.run, TokenStream.next] at h
  split at h
  · rename_i l later hnext
    cases h
    cases hup : s.stream.upcoming with
    | nil =>
      rw [hup] at hnext
      cases hnext
      simp [left, TokenStream.final]
    | cons d rest =>
      rw [hup] at hnext
      cases hnext
      refine Nat.lt_of_le_of_lt (left_le _) ?_
      simp [remaining, hup]
  · cases h

/-- Moving over tokens leaves that many fewer. -/
theorem Consumes.length_add_left_le {s t : ReaderState} {ts : List Token}
    (h : Consumes s ts t) : ts.length + t.left ≤ s.left := by
  induction h with
  | nil s => simp
  | cons hne hadv hrest ih =>
    have hlt := left_lt_of_advance hne hadv
    simp only [List.length_cons]
    omega

end ReaderState

/-! ## Primitive readers -/

namespace Reader

open ReaderState

variable {α : Type}

@[simp] theorem run_peek (s : ReaderState) : peek.run s = .ok s.current.token s := rfl

/-- Accepting an optional token. -/
theorem run_eat (t : Token) (s : ReaderState) :
    (eat t).run s =
      if s.current.token = t then
        match advance.run s with
        | .ok _ u => .ok true u
        | .error e u => .error e u
      else .ok false s := by
  unfold eat
  rw [EStateM.run_bind, run_peek]
  dsimp only
  split
  · rw [EStateM.run_bind]
    cases advance.run s <;> rfl
  · rfl

/-- An optional token that is found has been moved over. -/
theorem run_eat_eq_true_iff {t : Token} {s u : ReaderState} (ht : t ≠ .endOfInput) :
    (eat t).run s = .ok true u ↔ Consumes s [t] u := by
  rw [run_eat, consumes_singleton_iff]
  by_cases h : s.current.token = t
  · rw [if_pos h]
    cases advance.run s <;> simp [h, ht]
  · simp [h]

/-- An optional token that is not found changes nothing. -/
theorem run_eat_eq_false_iff {t : Token} {s u : ReaderState} :
    (eat t).run s = .ok false u ↔ s.current.token ≠ t ∧ u = s := by
  rw [run_eat]
  by_cases h : s.current.token = t
  · rw [if_pos h]
    cases advance.run s <;> simp [h]
  · simp [h, eq_comm]

/-- A token that must be there has been moved over. -/
theorem run_expect_eq_ok_iff {t : Token} {s u : ReaderState} (ht : t ≠ .endOfInput) :
    (expect t).run s = .ok () u ↔ Consumes s [t] u := by
  rw [← run_eat_eq_true_iff ht]
  unfold expect
  rw [run_bind_eq_ok_iff]
  constructor
  · rintro ⟨found, v, heat, hrest⟩
    cases found with
    | true =>
      cases hrest
      exact heat
    | false => cases hrest
  · intro heat
    exact ⟨true, u, heat, rfl⟩

/-- A numeral is in range if it is read as a number. -/
theorem literalNumber?_eq_some_iff {digits : String} {n : Int16} :
    literalNumber? digits = some n ↔ Grammar.IsNumber digits n := by
  unfold literalNumber?
  constructor
  · intro h
    have hval := toInt_of_number?_eq_some h
    refine ⟨?_, hval⟩
    have hlt := n.toInt_lt
    omega
  · rintro ⟨_, hval⟩
    rw [← hval]
    exact number?_toInt n

/-- Reading a number moves over a numeral in range. -/
theorem run_numberLiteral_eq_ok_iff {s u : ReaderState} {n : Int16} :
    numberLiteral.run s = .ok n u ↔
      ∃ digits, Grammar.IsNumber digits n ∧ Consumes s [.number digits] u := by
  unfold numberLiteral
  rw [EStateM.run_bind, run_peek]
  dsimp only
  simp only [consumes_singleton_iff, ← literalNumber?_eq_some_iff]
  split
  · rename_i digits htok
    rw [htok]
    split
    · rename_i m hm
      rw [run_bind_eq_ok_iff]
      constructor
      · rintro ⟨_, v, hadv, hpure⟩
        cases hpure
        exact ⟨digits, hm, rfl, by simp, hadv⟩
      · rintro ⟨digits', hm', htok', _, hadv⟩
        cases htok'
        rw [hm] at hm'
        cases hm'
        exact ⟨(), u, hadv, rfl⟩
    · rename_i hnone
      constructor
      · intro h
        cases h
      · rintro ⟨digits', hm', htok', _⟩
        cases htok'
        rw [hnone] at hm'
        cases hm'
  · rename_i hother
    constructor
    · intro h
      cases h
    · rintro ⟨digits, _, htok, _⟩
      exact absurd htok (hother digits)

/-- Reading a name moves over an identifier, which is given in capitals. -/
theorem run_identifier_eq_ok_iff {s u : ReaderState} {x : String} :
    identifier.run s = .ok x u ↔ ∃ ts, Grammar.Name ts x ∧ Consumes s ts u := by
  unfold identifier
  rw [EStateM.run_bind, run_peek]
  dsimp only
  split
  · rename_i spelling htok
    rw [run_bind_eq_ok_iff]
    constructor
    · rintro ⟨_, v, hadv, hpure⟩
      cases hpure
      exact ⟨_, .mk spelling, consumes_singleton_iff.2 ⟨htok, by simp, hadv⟩⟩
    · rintro ⟨ts, hname, hts⟩
      cases hname with
      | mk y =>
        rcases consumes_singleton_iff.1 hts with ⟨htok', -, hadv⟩
        rw [htok] at htok'
        cases htok'
        exact ⟨(), u, hadv, rfl⟩
  · rename_i hother
    constructor
    · intro h
      cases h
    · rintro ⟨ts, hname, hts⟩
      cases hname with
      | mk y => exact absurd (consumes_singleton_iff.1 hts).1 (hother y)

end Reader

end LineBasic
