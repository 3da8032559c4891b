import LineBasic.Proofs.Token.Lexing
import LineBasic.Proofs.Token.Spelling
import Mathlib.Logic.Function.Iterate

/-!
# Scanning a text

A stream passes over blanks and comments and delivers what stands at the point that it comes to.
If tokens begin there, it delivers the longest of them.  If none does, it delivers an error, and
the first characters tell which one.

Main definitions:

- `TokenStream.nth`: the deliveries of a stream by their numbers.
- `Passes`: what is passed over in front of a point.
- `Token.LongestAt`: the longest match at a point.
- `Scan`: what is delivered at a point.

Main results:

- `Piece.kind_eq_unterminatedText_iff` and its siblings: where each error occurs.
- `TokenStream.exists_scan`: what one step of a stream does.
- `TokenStream.scan_of_text`: the same for all steps through a text.
-/

namespace LineBasic

/-! ## Points of a text -/

/-- The delivery of a stream behind `n` others. -/
def TokenStream.nth (s : TokenStream) : Nat → Delivery
  | 0 => s.next.1
  | n + 1 => s.next.2.nth n

/-- Blanks and comments are passed over to come to the point in front of `rest`.  A comment ends
in front of a carriage return or with the text. -/
inductive Passes : List Char → List Char → Prop where
  | here {rest} : (∀ c ∈ rest.head?, c ≠ ' ' ∧ c ≠ '\t' ∧ c ≠ '#') → Passes [] rest
  | blank {c passed rest} : c = ' ' ∨ c = '\t' → Passes passed rest → Passes (c :: passed) rest
  | comment {w passed rest} : (∀ c ∈ w, c ≠ '\r') → (∀ c ∈ (passed ++ rest).head?, c = '\r') →
      Passes passed rest → Passes ('#' :: w ++ passed) rest

/-- The text `rest` begins with a spelling of a token, and with no longer spelling of any. -/
structure Token.LongestAt (t : Token) (w rest : List Char) : Prop where
  spelled : t.SpelledAs w
  begins : w <+: rest
  longest : ∀ t' w', SpelledAs t' w' → w' <+: rest → w'.length ≤ w.length

/-- A delivery reports a fault. -/
def Delivery.Faults (d : Delivery) (f : LexicalFault) : Prop :=
  ∃ p, d = .error ⟨p, f⟩

/-- What is delivered at the point of a text in front of `rest`, if the next delivery is looked
for from `after` on. -/
structure Scan (text : String) (rest : List Char) (d : Delivery) (after : List Char) : Prop where
  /-- The delivery carries the position of the point. -/
  position_eq : ∃ front, text.toList = front ++ rest ∧ positionOf d = Position.start.after front
  /-- At the end of the text, this is the end. -/
  ends : rest = [] → d = .ok ⟨.endOfInput, endPosition text⟩ ∧ after = []
  /-- Where any token begins, it is the one of the longest match. -/
  longest : ∀ t w, Token.SpelledAs t w → w <+: rest → ∃ t' w' p, d = .ok ⟨t', p⟩ ∧
    rest = w' ++ after ∧ ∀ t'' w'', t''.LongestAt w'' rest ↔ t'' = t' ∧ w'' = w'
  /-- Where no token begins, it is a fault. -/
  faulty : rest ≠ [] → (∀ t w, Token.SpelledAs t w → ¬ w <+: rest) →
    ∃ f w, d.Faults f ∧ Skips f w after ∧ rest = w ++ after
  /-- A text is open if no quote follows on its line. -/
  unterminatedText_iff : d.Faults .unterminatedText ↔ ∃ later, rest = '"' :: later ∧
    ¬ ∃ w behind, later = w ++ '"' :: behind ∧ ∀ c ∈ w, c ≠ '\r' ∧ c ≠ '\n'
  /-- Line feeds belong behind carriage returns, and these in front of them. -/
  malformedLineBreak_iff : d.Faults .malformedLineBreak ↔
    ∃ later, rest = '\n' :: later ∨ rest = '\r' :: later ∧ later.head? ≠ some '\n'
  /-- Exclamation marks belong in front of equals signs. -/
  loneExclamation_iff : d.Faults .loneExclamation ↔
    ∃ later, rest = '!' :: later ∧ later.head? ≠ some '='
  /-- Any other character is invalid where no token begins. -/
  invalidCharacter_iff : ∀ c, d.Faults (.invalidCharacter c) ↔
    (∃ later, rest = c :: later) ∧ c ∉ ['"', '\r', '\n', '!'] ∧
      ∀ t w, Token.SpelledAs t w → ¬ w <+: rest

/-! ## The longest match -/

/-- There is one longest match. -/
theorem Token.LongestAt.unique {t t' : Token} {w w' rest : List Char} (h : t.LongestAt w rest)
    (h' : t'.LongestAt w' rest) : t' = t ∧ w' = w := by
  have hlength : w'.length = w.length :=
    Nat.le_antisymm (h.longest _ _ h'.spelled h'.begins) (h'.longest _ _ h.spelled h.begins)
  have hsame : w' = w :=
    (List.prefix_of_prefix_length_le h'.begins h.begins (Nat.le_of_eq hlength)).eq_of_length
      hlength
  subst hsame
  exact ⟨h'.spelled.unique h.spelled, rfl⟩

/-- Something is skipped. -/
theorem Skips.ne_nil {f : LexicalFault} {w rest : List Char} (h : Skips f w rest) : w ≠ [] := by
  cases h <;> simp

namespace Piece

variable {c : Char} {rest : List Char}

/-- A first piece that is a token is the longest match. -/
theorem longestAt_of_kind_eq {t : Token} (h : (first c rest).1.kind = .token t) :
    t.LongestAt (first c rest).1.text (c :: rest) := by
  have hall := first_text_append c rest
  have hcut := cutsOff_first c rest
  generalize first c rest = cut at h hall hcut
  rcases cut with ⟨⟨kind, w⟩, after⟩
  cases h
  rw [← hall]
  cases hcut with
  | longest hmatches hlongest =>
    refine ⟨Token.matches_iff_spelledAs.1 hmatches, List.prefix_append w after, ?_⟩
    exact fun t' w' hspelled hbegins =>
      hlongest _ w' hbegins (Token.matches_iff_spelledAs.2 hspelled)

/-- Where the first piece is a fault, no token begins, and the fault tells what is skipped. -/
theorem skips_of_kind_eq {f : LexicalFault} (h : (first c rest).1.kind = .fault f) :
    (∀ t w, Token.SpelledAs t w → ¬ w <+: c :: rest) ∧
      ∃ v, rest = v ++ (first c rest).2 ∧ Skips f (c :: v) (first c rest).2 := by
  have hall := first_text_append c rest
  have hcut := cutsOff_first c rest
  generalize first c rest = cut at h hall hcut ⊢
  rcases cut with ⟨⟨kind, w⟩, after⟩
  cases h
  cases hcut with
  | longest hmatches => cases hmatches
  | faulty hnone hskips =>
    have hspellings : ∀ t w', Token.SpelledAs t w' → ¬ w' <+: w ++ after :=
      fun t w' hspelled hbegins => hnone _ w' hbegins (Token.matches_iff_spelledAs.2 hspelled)
    rw [hall] at hspellings
    rcases List.exists_cons_of_ne_nil hskips.ne_nil with ⟨d, v, rfl⟩
    rcases List.cons.inj hall with ⟨rfl, hrest⟩
    exact ⟨hspellings, v, hrest.symm, hskips⟩

/-- At a point, the first piece is a token or a fault. -/
theorem kind_cases (rest : List Char) (hgap : c ≠ ' ' ∧ c ≠ '\t') (hhash : c ≠ '#') :
    (∃ t, (first c rest).1.kind = .token t) ∨ ∃ f, (first c rest).1.kind = .fault f := by
  have hall := first_text_append c rest
  have hcut := cutsOff_first c rest
  generalize first c rest = cut at hall hcut ⊢
  rcases cut with ⟨⟨kind, w⟩, after⟩
  cases hcut with
  | faulty => exact .inr ⟨_, rfl⟩
  | longest hmatches =>
    cases hmatches with
    | number | text | word | sign => exact .inl ⟨_, rfl⟩
    | @blank w hne hgaps =>
      rcases List.exists_cons_of_ne_nil hne with ⟨d, v, rfl⟩
      rcases List.cons.inj hall with ⟨rfl, -⟩
      rcases isGap_iff.1 (hgaps d List.mem_cons_self) with heq | heq
      · exact absurd heq hgap.1
      · exact absurd heq hgap.2
    | comment =>
      rcases List.cons.inj hall with ⟨heq, -⟩
      exact absurd heq.symm hhash

/-! ## Where each fault occurs -/

/-- A text without line ends in front of a quote can be cut at its first quote. -/
theorem exists_quotable {w behind : List Char} (h : ∀ d ∈ w, d ≠ '\r' ∧ d ≠ '\n') :
    ∃ v more, w ++ '"' :: behind = v ++ '"' :: more ∧ ∀ d ∈ v, d ≠ '"' ∧ d ≠ '\r' ∧ d ≠ '\n' := by
  induction w with
  | nil => exact ⟨[], behind, rfl, by simp⟩
  | cons d w ih =>
    rcases List.forall_mem_cons.1 h with ⟨hd, hw⟩
    by_cases hquote : d = '"'
    · subst hquote
      exact ⟨[], w ++ '"' :: behind, rfl, by simp⟩
    · rcases ih hw with ⟨v, more, heq, hv⟩
      exact ⟨d :: v, more, by rw [List.cons_append, heq, List.cons_append],
        List.forall_mem_cons.2 ⟨⟨hquote, hd⟩, hv⟩⟩

/-- A text is open exactly behind a quote that no other one follows on its line. -/
theorem kind_eq_unterminatedText_iff : (first c rest).1.kind = .fault .unterminatedText ↔
    c = '"' ∧ ¬ ∃ w behind, rest = w ++ '"' :: behind ∧ ∀ d ∈ w, d ≠ '\r' ∧ d ≠ '\n' := by
  constructor
  · intro h
    rcases skips_of_kind_eq h with ⟨hnone, v, -, hskips⟩
    cases hskips with
    | unterminated =>
      refine ⟨rfl, ?_⟩
      rintro ⟨v, behind, rfl, hv⟩
      rcases exists_quotable hv with ⟨u, more, heq, hu⟩
      refine hnone _ _ (.text hu) ⟨more, ?_⟩
      rw [heq]
      simp
  · rintro ⟨rfl, hopen⟩
    rw [first_of_quote, quoted_of_open]
    intro behind hbehind
    have hsplit := List.takeWhile_append_dropWhile (p := isQuotable) (l := rest)
    rw [hbehind] at hsplit
    refine hopen ⟨_, behind, hsplit.symm, fun d hd => ?_⟩
    exact (isQuotable_iff.1 (forall_mem_takeWhile d hd)).2

/-- A single character is what it is alone if it forms no sign with the next one. -/
theorem kind_of_symbol (hfirst : first c rest = symbol c rest)
    (hpair : ∀ d, rest.head? = some d → pairToken? c d = none) :
    (first c rest).1.kind = singleKind c := by
  rw [hfirst]
  rcases symbol_cases c rest with ⟨d, more, t, rfl, ht, -⟩ | ⟨-, heq⟩
  · rw [hpair d rfl] at ht
    cases ht
  · rw [heq]

/-- Line breaks are malformed exactly where half of one is missing. -/
theorem kind_eq_malformedLineBreak_iff : (first c rest).1.kind = .fault .malformedLineBreak ↔
    c = '\n' ∨ c = '\r' ∧ rest.head? ≠ some '\n' := by
  constructor
  · intro h
    rcases skips_of_kind_eq h with ⟨hnone, v, -, hskips⟩
    cases hskips with
    | lineBreak hends =>
      refine hends.symm.imp_right fun hreturn => ⟨hreturn, fun hfeed => ?_⟩
      subst hreturn
      rcases List.head?_eq_some_iff.1 hfeed with ⟨more, rfl⟩
      exact hnone .lineBreak ['\r', '\n'] (.sign (by simp [signs])) ⟨more, rfl⟩
  · rintro (rfl | ⟨rfl, hhead⟩)
    · refine kind_of_symbol rfl fun d _ => ?_
      unfold pairToken?
      split <;> simp_all
    · refine kind_of_symbol rfl fun d hd => ?_
      unfold pairToken?
      split <;> simp_all

/-- An exclamation mark is alone exactly where no equals sign follows. -/
theorem kind_eq_loneExclamation_iff : (first c rest).1.kind = .fault .loneExclamation ↔
    c = '!' ∧ rest.head? ≠ some '=' := by
  constructor
  · intro h
    rcases skips_of_kind_eq h with ⟨hnone, v, -, hskips⟩
    cases hskips with
    | exclamation =>
      refine ⟨rfl, fun hequals => ?_⟩
      rcases List.head?_eq_some_iff.1 hequals with ⟨more, rfl⟩
      exact hnone .notEqual ['!', '='] (.sign (by simp [signs])) ⟨more, rfl⟩
  · rintro ⟨rfl, hhead⟩
    refine kind_of_symbol rfl fun d hd => ?_
    unfold pairToken?
    split <;> simp_all

/-- At a point where no token begins, a character is invalid exactly if it has no fault of its
own. -/
theorem kind_eq_invalidCharacter_iff (hgap : c ≠ ' ' ∧ c ≠ '\t') (hhash : c ≠ '#') {d : Char} :
    (first c rest).1.kind = .fault (.invalidCharacter d) ↔
      c = d ∧ d ∉ ['"', '\r', '\n', '!'] ∧ ∀ t w, Token.SpelledAs t w → ¬ w <+: c :: rest := by
  constructor
  · intro h
    rcases skips_of_kind_eq h with ⟨hnone, v, -, hskips⟩
    cases hskips with
    | character hother => exact ⟨rfl, hother, hnone⟩
  · rintro ⟨rfl, hother, hnone⟩
    rcases kind_cases rest hgap hhash with ⟨t, ht⟩ | ⟨f, hf⟩
    · have hlongest := longestAt_of_kind_eq ht
      exact absurd hlongest.begins (hnone _ _ hlongest.spelled)
    · obtain ⟨-, v, -, hskips⟩ := skips_of_kind_eq hf
      rw [hf]
      simp only [List.mem_cons, List.not_mem_nil, or_false, not_or] at hother
      cases hskips with
      | unterminated => exact absurd rfl hother.1
      | lineBreak hends =>
        rcases hends with heq | heq
        · exact absurd heq hother.2.1
        · exact absurd heq hother.2.2.1
      | exclamation => exact absurd rfl hother.2.2.2
      | character => rfl

/-- A piece at a point is what is delivered there. -/
theorem scan_of_first {text : String} {front : List Char} {d : Delivery}
    (htext : text.toList = front ++ c :: rest) (hgap : c ≠ ' ' ∧ c ≠ '\t') (hhash : c ≠ '#')
    (hposition : positionOf d = Position.start.after front)
    (htoken : ∀ t, (first c rest).1.kind = .token t → ∃ p, d = .ok ⟨t, p⟩)
    (hfault : ∀ f, d.Faults f ↔ (first c rest).1.kind = .fault f) :
    Scan text (c :: rest) d (first c rest).2 where
  position_eq := ⟨front, htext, hposition⟩
  ends h := absurd h (List.cons_ne_nil c rest)
  longest t w hspelled hbegins := by
    rcases kind_cases rest hgap hhash with ⟨t', ht'⟩ | ⟨f, hf⟩
    · rcases htoken t' ht' with ⟨p, hd⟩
      have hlongest := longestAt_of_kind_eq ht'
      refine ⟨t', _, p, hd, (first_text_append c rest).symm, fun t'' w'' => ⟨?_, ?_⟩⟩
      · exact fun hother => hlongest.unique hother
      · rintro ⟨rfl, rfl⟩
        exact hlongest
    · exact absurd hbegins ((skips_of_kind_eq hf).1 t w hspelled)
  faulty _ hnone := by
    rcases kind_cases rest hgap hhash with ⟨t, ht⟩ | ⟨f, hf⟩
    · have hlongest := longestAt_of_kind_eq ht
      exact absurd hlongest.begins (hnone _ _ hlongest.spelled)
    · obtain ⟨-, v, hrest, hskips⟩ := skips_of_kind_eq hf
      exact ⟨f, c :: v, (hfault f).2 hf, hskips, congrArg (List.cons c) hrest⟩
  unterminatedText_iff := by
    rw [hfault, kind_eq_unterminatedText_iff]
    simp [and_assoc]
  malformedLineBreak_iff := by
    rw [hfault, kind_eq_malformedLineBreak_iff]
    simp [and_assoc, exists_or]
  loneExclamation_iff := by
    rw [hfault, kind_eq_loneExclamation_iff]
    simp [and_assoc]
  invalidCharacter_iff e := by
    rw [hfault, kind_eq_invalidCharacter_iff hgap hhash]
    simp

end Piece

/-! ## Steps of a stream -/

/-- What is left of a text behind the first token or fault in it. -/
def behindFound : List Char → List Char
  | [] => []
  | c :: rest =>
    match (Piece.first c rest).1.kind with
    | .token _ => (Piece.first c rest).2
    | .fault _ => (Piece.first c rest).2
    | .blank => behindFound (Piece.first c rest).2
    | .comment => behindFound (Piece.first c rest).2
termination_by cs => cs.length
decreasing_by all_goals exact Piece.length_first_snd_lt c rest

/-- Blanks are passed over one by one. -/
theorem Passes.append_blanks {w passed rest : List Char} (hw : ∀ c ∈ w, isGap c = true)
    (h : Passes passed rest) : Passes (w ++ passed) rest := by
  induction w with
  | nil => exact h
  | cons c w ih =>
    rcases List.forall_mem_cons.1 hw with ⟨hc, hw⟩
    exact .blank (isGap_iff.1 hc) (ih hw)

/-- Behind what is passed over there is no blank and no comment. -/
theorem Passes.head_ne {passed rest : List Char} (h : Passes passed rest) :
    ∀ c ∈ rest.head?, c ≠ ' ' ∧ c ≠ '\t' ∧ c ≠ '#' := by
  induction h with
  | here hhead => exact hhead
  | blank _ _ ih => exact ih
  | comment _ _ _ ih => exact ih

/-- What is passed over can begin with a piece that reports nothing. -/
theorem Passes.append_first {c : Char} {rest passed point : List Char}
    (hkind : (Piece.first c rest).1.kind = .blank ∨ (Piece.first c rest).1.kind = .comment)
    (hbehind : (Piece.first c rest).2 = passed ++ point) (h : Passes passed point) :
    Passes ((Piece.first c rest).1.text ++ passed) point := by
  by_cases hgap : isGap c = true
  · rw [Piece.first_of_gap hgap]
    exact h.append_blanks (Piece.forall_mem_spanning hgap)
  by_cases hhash : c = '#'
  · subst hhash
    refine .comment (fun d hd => ?_) (fun d hd => ?_) h
    · simpa [isRemark] using forall_mem_takeWhile d hd
    · have hstop := List.head?_dropWhile_not isRemark rest
      rw [show rest.dropWhile isRemark = passed ++ point from hbehind, Option.mem_def.1 hd] at hstop
      simpa [isRemark] using hstop
  · have hgaps : c ≠ ' ' ∧ c ≠ '\t' := not_or.1 (mt isGap_iff.2 hgap)
    rcases Piece.kind_cases rest hgaps hhash with ⟨t, ht⟩ | ⟨f, hf⟩
    · simp [ht] at hkind
    · simp [hf] at hkind

/-- At the end of a text, its end is delivered. -/
theorem scan_nil (text : String) :
    Scan text [] (.ok ⟨.endOfInput, endPosition text⟩) [] where
  position_eq := ⟨text.toList, (List.append_nil _).symm, rfl⟩
  ends _ := ⟨rfl, rfl⟩
  longest _ _ hspelled hbegins := absurd (List.prefix_nil.1 hbegins) hspelled.ne_nil
  faulty h := absurd rfl h
  unterminatedText_iff := by simp [Delivery.Faults]
  malformedLineBreak_iff := by simp [Delivery.Faults]
  loneExclamation_iff := by simp [Delivery.Faults]
  invalidCharacter_iff _ := by simp [Delivery.Faults]

namespace TokenStream

/-- The stream of a text behind the part `front` of it, in front of the part `cs`. -/
def within (text : String) (front cs : List Char) : TokenStream :=
  ⟨deliveries (Position.start.after front) (pieces cs), endPosition text⟩

/-- A stream passes over blanks and comments as if they were not there. -/
theorem exists_passes (text : String) (front cs : List Char) :
    ∃ passed rest, cs = passed ++ rest ∧ Passes passed rest ∧
      (within text front cs).next = (within text (front ++ passed) rest).next ∧
      behindFound cs = behindFound rest := by
  -- a piece that reports nothing only lengthens what is passed over
  have hsilent {c : Char} {rest front : List Char}
      (hkind : (Piece.first c rest).1.kind = .blank ∨ (Piece.first c rest).1.kind = .comment)
      {passed point : List Char} (hbehind : (Piece.first c rest).2 = passed ++ point)
      (hpasses : Passes passed point)
      (hnext : (within text (front ++ (Piece.first c rest).1.text) (Piece.first c rest).2).next =
        (within text (front ++ (Piece.first c rest).1.text ++ passed) point).next) :
      c :: rest = (Piece.first c rest).1.text ++ passed ++ point ∧
        Passes ((Piece.first c rest).1.text ++ passed) point ∧
        (within text front (c :: rest)).next =
          (within text (front ++ ((Piece.first c rest).1.text ++ passed)) point).next := by
    refine ⟨?_, hpasses.append_first hkind hbehind, ?_⟩
    · rw [List.append_assoc, ← hbehind, Piece.first_text_append]
    · rw [← List.append_assoc, ← hnext]
      rcases hkind with hkind | hkind <;>
        simp only [within, pieces, deliveries, hkind, Position.after_append]
  fun_induction behindFound cs generalizing front with
  | case1 => exact ⟨[], [], rfl, .here (by simp), by rw [List.append_nil], by rw [behindFound]⟩
  | case2 c rest t hkind | case3 c rest f hkind =>
    refine ⟨[], c :: rest, rfl, .here fun d hd => ?_, by rw [List.append_nil], ?_⟩
    · cases hd
      refine ⟨?_, ?_, ?_⟩ <;>
      · rintro rfl
        cases hkind
    · simp only [behindFound, hkind]
  | case4 c rest hkind ih | case5 c rest hkind ih =>
    rcases ih (front ++ (Piece.first c rest).1.text) with
      ⟨passed, point, hbehind, hpasses, hnext, hafter⟩
    rcases hsilent (by simp [hkind]) hbehind hpasses hnext with ⟨hall, hpasses, hnext⟩
    exact ⟨_, point, hall, hpasses, hnext, hafter⟩

/-- What a stream delivers at a point. -/
theorem scan_at_point {text : String} {front rest : List Char} (htext : text.toList = front ++ rest)
    (hpoint : ∀ c ∈ rest.head?, c ≠ ' ' ∧ c ≠ '\t' ∧ c ≠ '#') :
    Scan text rest (within text front rest).next.1 (behindFound rest) ∧
      ∃ front', text.toList = front' ++ behindFound rest ∧
        (within text front rest).next.2 = within text front' (behindFound rest) := by
  cases rest with
  | nil =>
    have hnone : behindFound [] = [] := by rw [behindFound]
    have hnext : (within text front []).next =
        (.ok ⟨.endOfInput, endPosition text⟩, within text front []) := by
      simp only [within, pieces, deliveries, TokenStream.next, final]
    rw [hnone, hnext]
    exact ⟨scan_nil text, front, htext, rfl⟩
  | cons c rest =>
    rcases hpoint c rfl with ⟨hspace, htab, hhash⟩
    have hfront :
        text.toList = (front ++ (Piece.first c rest).1.text) ++ (Piece.first c rest).2 := by
      rw [List.append_assoc, Piece.first_text_append, htext]
    rcases Piece.kind_cases rest ⟨hspace, htab⟩ hhash with ⟨t, hkind⟩ | ⟨f, hkind⟩
    · have hafter : behindFound (c :: rest) = (Piece.first c rest).2 := by
        simp only [behindFound, hkind]
      have hnext : (within text front (c :: rest)).next =
          (.ok ⟨t, Position.start.after front⟩,
            within text (front ++ (Piece.first c rest).1.text) (Piece.first c rest).2) := by
        simp only [within, pieces, deliveries, hkind, Position.after_append, TokenStream.next]
      rw [hafter, hnext]
      refine ⟨Piece.scan_of_first htext ⟨hspace, htab⟩ hhash rfl (fun t' ht' => ?_) fun f => ?_,
        _, hfront, rfl⟩
      · rw [hkind] at ht'
        cases ht'
        exact ⟨_, rfl⟩
      · simp [Delivery.Faults, hkind]
    · have hafter : behindFound (c :: rest) = (Piece.first c rest).2 := by
        simp only [behindFound, hkind]
      have hnext : (within text front (c :: rest)).next =
          (.error ⟨Position.start.after front, f⟩,
            within text (front ++ (Piece.first c rest).1.text) (Piece.first c rest).2) := by
        simp only [within, pieces, deliveries, hkind, Position.after_append, TokenStream.next]
      rw [hafter, hnext]
      refine ⟨Piece.scan_of_first htext ⟨hspace, htab⟩ hhash rfl (fun t' ht' => ?_) fun f' => ?_,
        _, hfront, rfl⟩
      · rw [hkind] at ht'
        cases ht'
      · simp [Delivery.Faults, hkind]

/-- A step of a stream passes over blanks and comments, and delivers what stands behind them. -/
theorem exists_scan {text : String} {front cs : List Char} (htext : text.toList = front ++ cs) :
    (∃ passed rest, cs = passed ++ rest ∧ Passes passed rest ∧
      Scan text rest (within text front cs).next.1 (behindFound cs)) ∧
    ∃ front', text.toList = front' ++ behindFound cs ∧
      (within text front cs).next.2 = within text front' (behindFound cs) := by
  rcases exists_passes text front cs with ⟨passed, rest, rfl, hpasses, hnext, hafter⟩
  rw [← List.append_assoc] at htext
  rcases scan_at_point htext hpasses.head_ne with ⟨hscan, hlater⟩
  rw [hnext, hafter]
  exact ⟨⟨passed, rest, rfl, hpasses, hscan⟩, hlater⟩

/-- Every step of the stream of a text scans it from where the step before ended: it passes over
blanks and comments, and delivers the token of the longest match there, or the fault that stands
there. -/
theorem scan_of_text (text : String) : ∃ unread : Nat → List Char, unread 0 = text.toList ∧
    ∀ n, ∃ passed rest, unread n = passed ++ rest ∧ Passes passed rest ∧
      Scan text rest ((ofText text).nth n) (unread (n + 1)) := by
  -- the stream behind `n` deliveries is that of the text left behind as many tokens and faults
  have hsteps (s : TokenStream) (front cs : List Char) (n : Nat) (hs : s = within text front cs)
      (htext : text.toList = front ++ cs) :
      ∃ passed rest, behindFound^[n] cs = passed ++ rest ∧ Passes passed rest ∧
        Scan text rest (s.nth n) (behindFound^[n + 1] cs) := by
    induction n generalizing s front cs with
    | zero =>
      rw [hs]
      exact (exists_scan htext).1
    | succ n ih =>
      rcases (exists_scan htext).2 with ⟨front', htext', hnext⟩
      rw [← hs] at hnext
      exact ih s.next.2 front' (behindFound cs) hnext htext'
  exact ⟨fun n => behindFound^[n] text.toList, rfl,
    fun n => hsteps (ofText text) [] text.toList n rfl rfl⟩

end TokenStream

end LineBasic
