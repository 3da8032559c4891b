import LineBasic.Proofs.Token.Spelling
import LineBasic.Token.Stream

/-!
# Texts as tokens

A text without faults is a list of tokens with blanks and comments between them.  Each token ends
where the next character would not make it longer, and each comment ends in front of a carriage
return or at the end of the text.  What is said here of a part of a text holds in front of
everything that begins with the same character.

Main definition:

- `Lexes`: the tokens of a part of a text.

Main results:

- `Lexes.append` and `Lexes.exists_of_lineBreak`: parts are put together, and cut at line breaks.
- `lexes_of_cut`: the pieces of a text without faults are tokens, blanks and comments.
- `Lexes.untilError_eq`: the tokens of a text are read, one after the other.
-/

namespace LineBasic

/-- In front of `behind`, the characters are tokens with blanks and comments between them. -/
inductive Lexes : List Char → List Token → List Char → Prop where
  | nil {behind} : Lexes [] [] behind
  | blank {c cs ts behind} : isGap c = true → Lexes cs ts behind → Lexes (c :: cs) ts behind
  | comment {w cs ts behind} : (∀ c ∈ w, isRemark c = true) →
      (∀ c ∈ (cs ++ behind).head?, c = '\r') → Lexes cs ts behind →
      Lexes ('#' :: w ++ cs) ts behind
  | token {t w cs ts behind} : t.SpelledAs w →
      (∀ c ∈ (cs ++ behind).head?, t.prolongedBy c = false) → Lexes cs ts behind →
      Lexes (w ++ cs) (t :: ts) behind

/-! ## Putting together -/

namespace Lexes

variable {cs ds behind : List Char} {ts us : List Token}

/-- Blanks in front of tokens. -/
theorem blanks {gap : List Char} (hgap : ∀ c ∈ gap, isGap c = true) (h : Lexes cs ts behind) :
    Lexes (gap ++ cs) ts behind := by
  induction gap with
  | nil => exact h
  | cons c gap ih =>
    rcases List.forall_mem_cons.1 hgap with ⟨hc, hgaps⟩
    exact .blank hc (ih hgaps)

/-- A part and the part behind it. -/
theorem append (h : Lexes cs ts (ds ++ behind)) (h' : Lexes ds us behind) :
    Lexes (cs ++ ds) (ts ++ us) behind := by
  generalize hall : ds ++ behind = rest at h
  induction h with
  | nil => exact h'
  | blank hc _ ih => exact .blank hc (ih hall)
  | comment hw hhead _ ih =>
    rw [List.append_assoc]
    refine .comment hw ?_ (ih hall)
    rwa [List.append_assoc, hall]
  | token hw hhead _ ih =>
    rw [List.append_assoc]
    refine .token hw ?_ (ih hall)
    rwa [List.append_assoc, hall]

/-- A part stays what it is in front of what begins alike or with a carriage return. -/
theorem congr {behind' : List Char} (h : Lexes cs ts behind)
    (hhead : ∀ c ∈ behind'.head?, c ∈ behind.head? ∨ c = '\r') : Lexes cs ts behind' := by
  have hshift {p : Char → Prop} (hreturn : p '\r') (cs : List Char)
      (hp : ∀ c ∈ (cs ++ behind).head?, p c) : ∀ c ∈ (cs ++ behind').head?, p c := by
    cases cs with
    | nil =>
      intro c hc
      rcases hhead c hc with hsame | rfl
      · exact hp c hsame
      · exact hreturn
    | cons d cs => exact hp
  induction h with
  | nil => exact .nil
  | blank hc _ ih => exact .blank hc (ih hhead hshift)
  | comment hw hend _ ih =>
    exact .comment hw (hshift (p := fun c => c = '\r') rfl _ hend) (ih hhead hshift)
  | @token t _ _ _ _ hw hend _ ih =>
    have hreturn : t.prolongedBy '\r' = false := by cases t <;> rfl
    exact .token hw (hshift (p := fun c => t.prolongedBy c = false) hreturn _ hend)
      (ih hhead hshift)

/-- Nothing holds no token. -/
theorem eq_nil (h : Lexes [] ts behind) : ts = [] := by
  generalize hnil : ([] : List Char) = cs at h
  cases h with
  | nil => rfl
  | blank => cases hnil
  | comment => cases hnil
  | token hw => exact absurd (List.append_eq_nil_iff.1 hnil.symm).1 hw.ne_nil

/-- What holds no token can stand behind tokens, if it makes none of them longer and may go on a
comment. -/
theorem append_filler {w : List Char} (h : Lexes cs ts behind) (hw : Lexes w [] behind)
    (hhead : ∀ c ∈ w.head?, ∀ t : Token, t.prolongedBy c = false)
    (hremark : ∀ c ∈ w, isRemark c = true) : Lexes (cs ++ w) ts behind := by
  induction h with
  | nil => exact hw
  | blank hc _ ih => exact .blank hc (ih hw)
  | @comment v cs ts behind hv hend hcs ih =>
    cases cs with
    | nil =>
      -- the comment goes on up to the end of what is put behind it
      obtain rfl := hcs.eq_nil
      have hlonger : Lexes ('#' :: (v ++ w) ++ []) [] behind :=
        .comment (List.forall_mem_append.2 ⟨hv, hremark⟩) hend .nil
      simpa using hlonger
    | cons d cs =>
      rw [List.append_assoc]
      exact .comment hv hend (ih hw)
  | @token t v cs ts behind hv hend _ ih =>
    rw [List.append_assoc]
    refine .token hv ?_ (ih hw)
    cases cs with
    | nil =>
      cases w with
      | nil => exact hend
      | cons c w => exact fun d hd => hhead d hd t
    | cons d cs => exact hend

end Lexes

/-! ## Line breaks -/

/-- Only a line break is spelled with a carriage return. -/
theorem Token.SpelledAs.eq_lineBreak {t : Token} {w : List Char} (h : t.SpelledAs w)
    (hmem : '\r' ∈ w) : t = .lineBreak ∧ w = ['\r', '\n'] := by
  have hword {c : Char} {v : List Char} (hc : c.isAlpha = true)
      (hv : ∀ d ∈ v, d.isAlphanum = true) : '\r' ∉ c :: v := by
    intro hmem
    rcases List.mem_cons.1 hmem with rfl | hlater
    · cases hc
    · cases hv _ hlater
  cases h with
  | number _ hdigits => cases hdigits _ hmem
  | text hquotable =>
    have hinside := hquotable '\r' (by simpa using hmem)
    exact absurd rfl hinside.2.1
  | keyword hc hv => exact absurd hmem (hword hc hv)
  | identifier hc hv => exact absurd hmem (hword hc hv)
  | sign hsign =>
    have hall : ∀ s ∈ signs, '\r' ∈ s.2 → s.1 = .lineBreak ∧ s.2 = ['\r', '\n'] := by decide
    exact hall _ hsign hmem

/-- An element in front of a cut, or behind it. -/
theorem append_cons_eq_append {α : Type} {front after xs ys : List α} {a : α}
    (h : front ++ a :: after = xs ++ ys) :
    (∃ more, front = xs ++ more ∧ ys = more ++ a :: after) ∨
      ∃ more, xs = front ++ a :: more ∧ after = more ++ ys := by
  rcases List.append_eq_append_iff.1 h with ⟨more, rfl, hmore⟩ | hfront
  · rcases List.cons_eq_append_iff.1 hmore with ⟨rfl, rfl⟩ | ⟨more, rfl, rfl⟩
    · exact .inl ⟨[], by simp, rfl⟩
    · exact .inr ⟨more, rfl, rfl⟩
  · exact .inl hfront

/-- A line break in a text is a token of its own, with tokens in front of it and behind it. -/
theorem Lexes.exists_of_lineBreak {front after behind : List Char} {ts : List Token}
    (h : Lexes (front ++ '\r' :: '\n' :: after) ts behind) :
    ∃ us vs, ts = us ++ .lineBreak :: vs ∧ Lexes front us ('\r' :: '\n' :: after ++ behind) ∧
      Lexes after vs behind := by
  generalize hall : front ++ '\r' :: '\n' :: after = cs at h
  induction h generalizing front with
  | nil => simp at hall
  | blank hc hcs ih =>
    cases front with
    | nil =>
      cases hall
      cases hc
    | cons d front =>
      rcases List.cons.inj hall with ⟨rfl, hrest⟩
      obtain ⟨us, vs, hts, hus, hvs⟩ := ih hrest
      exact ⟨us, vs, hts, .blank hc hus, hvs⟩
  | @comment w cs ts behind hw hend hcs ih =>
    rcases append_cons_eq_append hall with ⟨more, rfl, hmore⟩ | ⟨more, hinside, -⟩
    · obtain ⟨us, vs, hts, hus, hvs⟩ := ih hmore.symm
      refine ⟨us, vs, hts, .comment hw ?_ hus, hvs⟩
      rwa [hmore, List.append_assoc] at hend
    · have hmem : '\r' ∈ '#' :: w := by simp [hinside]
      rcases List.mem_cons.1 hmem with hhash | hreturn
      · cases hhash
      · cases hw _ hreturn
  | @token t w cs ts behind hw hend hcs ih =>
    rcases append_cons_eq_append hall with ⟨more, rfl, hmore⟩ | ⟨more, hinside, hafter⟩
    · obtain ⟨us, vs, rfl, hus, hvs⟩ := ih hmore.symm
      refine ⟨t :: us, vs, rfl, .token hw ?_ hus, hvs⟩
      rwa [hmore, List.append_assoc] at hend
    · -- the carriage return belongs to this token, which is the line break then
      obtain ⟨rfl, rfl⟩ := hw.eq_lineBreak (by simp [hinside])
      cases front with
      | nil =>
        cases hinside
        cases hafter
        exact ⟨[], ts, rfl, .nil, hcs⟩
      | cons d front =>
        cases front with
        | nil => cases hinside
        | cons e front => cases front <;> cases hinside

/-! ## Pieces -/

/-- The token that a piece is, if it is one. -/
def PieceKind.token? : PieceKind → Option Token
  | token t => some t
  | _ => none

/-- The pieces of a cut, written one after the other, are the text. -/
theorem Cut.flatMap_text {cs : List Char} {ps : List Piece} (h : Cut cs ps) :
    ps.flatMap Piece.text = cs := by
  induction h with
  | nil => rfl
  | cons _ _ ih => rw [List.flatMap_cons, ih]

/-- A character that makes a token longer gives a longer match. -/
theorem Token.SpelledAs.exists_matches {t : Token} {w : List Char} {c : Char} (h : t.SpelledAs w)
    (hc : t.prolongedBy c = true) : ∃ kind, Matches kind (w ++ [c]) := by
  have hword {d : Char} {v : List Char} (hd : d.isAlpha = true)
      (hv : ∀ e ∈ v, e.isAlphanum = true) (hc : c.isAlphanum = true) :
      ∃ kind, Matches kind (d :: v ++ [c]) :=
    ⟨_, .word hd (List.forall_mem_append.2 ⟨hv, List.forall_mem_singleton.2 hc⟩)⟩
  cases h with
  | number hne hdigits =>
    exact ⟨_, .number (by simp)
      (List.forall_mem_append.2 ⟨hdigits, List.forall_mem_singleton.2 hc⟩)⟩
  | text => cases hc
  | keyword hd hv => exact hword hd hv hc
  | identifier hd hv => exact hword hd hv hc
  | sign hsign =>
    have hnext : c = '=' ∨ c = '>' := by
      cases t with
      | number | identifier | keyword => simp [signs] at hsign
      | becomes | greater | less => simp_all [Token.prolongedBy]
      | _ => cases hc
    have hequal : ∀ s ∈ signs, s.1.prolongedBy '=' = true →
        (signToken? (s.2 ++ ['='])).isSome = true := by decide
    have hgreater : ∀ s ∈ signs, s.1.prolongedBy '>' = true →
        (signToken? (s.2 ++ ['>'])).isSome = true := by decide
    have hlonger : (signToken? (w ++ [c])).isSome = true := by
      rcases hnext with rfl | rfl
      · exact hequal _ hsign hc
      · exact hgreater _ hsign hc
    obtain ⟨u, hu⟩ := Option.isSome_iff_exists.1 hlonger
    exact ⟨_, .sign (mem_signs_iff.2 hu)⟩

/-- A piece that is no fault ends where nothing longer matches. -/
theorem CutsOff.not_matches {piece : Piece} {rest : List Char} (h : CutsOff piece rest)
    (hkind : ∀ f, piece.kind ≠ .fault f) {c : Char} (hc : c ∈ rest.head?) {kind : PieceKind} :
    ¬ Matches kind (piece.text ++ [c]) := by
  cases h with
  | @longest _ w rest _ hlongest =>
    intro hmatches
    cases rest with
    | nil => cases hc
    | cons d rest =>
      cases hc
      have hle := hlongest _ (w ++ [c]) ⟨rest, by simp⟩ hmatches
      rw [List.length_append, List.length_singleton] at hle
      omega
  | faulty => exact absurd rfl (hkind _)

/-- The first pieces of a text are tokens with blanks and comments between them, if they are no
faults. -/
theorem lexes_of_cut {cs : List Char} {ps qs : List Piece} (h : Cut cs (ps ++ qs))
    (hclean : ∀ piece ∈ ps, ∀ f, piece.kind ≠ .fault f) :
    Lexes (ps.flatMap Piece.text) (ps.filterMap fun piece => piece.kind.token?)
      (qs.flatMap Piece.text) := by
  induction ps generalizing cs with
  | nil => exact .nil
  | cons piece ps ih =>
    rcases List.forall_mem_cons.1 hclean with ⟨hkind, hothers⟩
    rcases h with _ | ⟨hcut, hrest⟩
    have hlater := ih hrest hothers
    have hbehind := hrest.flatMap_text.symm.trans (List.flatMap_append ..)
    have hends {c : Char} (hc : c ∈ (ps.flatMap Piece.text ++ qs.flatMap Piece.text).head?)
        {kind : PieceKind} : ¬ Matches kind (piece.text ++ [c]) :=
      hcut.not_matches hkind (hbehind ▸ hc)
    rw [List.flatMap_cons]
    cases hcut with
    | faulty => exact absurd rfl (hkind _)
    | @longest kind w _ hmatches _ =>
      cases kind with
      | token t =>
        have hspelled := Token.matches_iff_spelledAs.1 hmatches
        refine .token hspelled (fun c hc => ?_) hlater
        rw [← Bool.not_eq_true]
        intro hlonger
        obtain ⟨kind, hmatches'⟩ := hspelled.exists_matches hlonger
        exact hends hc hmatches'
      | blank =>
        cases hmatches with
        | blank _ hgap => exact .blanks hgap hlater
      | comment =>
        cases hmatches with
        | @comment v hremark =>
          refine .comment hremark (fun c hc => ?_) hlater
          by_contra hne
          have hc' : isRemark c = true := by simpa [isRemark] using hne
          exact hends hc (.comment (List.forall_mem_append.2
            ⟨hremark, List.forall_mem_singleton.2 hc'⟩))
      | fault f => exact absurd rfl (hkind f)

/-- Pieces without faults are the tokens among them, with blanks and comments between them. -/
theorem Cut.lexes {cs : List Char} {ps : List Piece} (h : Cut cs ps)
    (hclean : ∀ piece ∈ ps, ∀ f, piece.kind ≠ .fault f) :
    Lexes (ps.flatMap Piece.text) (ps.filterMap fun piece => piece.kind.token?) [] := by
  rw [← List.append_nil ps] at h
  exact lexes_of_cut h hclean

/-- The last pieces of a cut are a cut. -/
theorem Cut.of_append {cs : List Char} {ps qs : List Piece} (h : Cut cs (ps ++ qs)) :
    Cut (qs.flatMap Piece.text) qs := by
  induction ps generalizing cs with
  | nil => exact h.flatMap_text.symm ▸ h
  | cons piece ps ih =>
    rcases h with _ | ⟨-, hrest⟩
    exact ih hrest

/-! ## Reading -/

/-- A token in front of a character that does not make it longer is a piece. -/
theorem pieces_spelled {t : Token} {w rest : List Char} (h : t.SpelledAs w)
    (hrest : ∀ c ∈ rest.head?, t.prolongedBy c = false) :
    pieces (w ++ rest) = ⟨.token t, w⟩ :: pieces rest := by
  rcases List.exists_cons_of_ne_nil h.ne_nil with ⟨c, v, rfl⟩
  rw [List.cons_append, pieces, h.first_eq hrest]

/-- Blanks are not delivered. -/
theorem deliveries_blank (p : Position) {c : Char} (hc : isGap c = true) (cs : List Char) :
    deliveries p (pieces (c :: cs)) = deliveries (p.advance c) (pieces cs) := by
  rw [pieces, Piece.first_of_gap hc]
  cases cs with
  | nil => simp [Piece.spanning, pieces, deliveries]
  | cons d ds =>
    cases hd : isGap d with
    | true =>
      rw [pieces, Piece.first_of_gap hd]
      simp [Piece.spanning, deliveries, hd]
    | false => simp [Piece.spanning, deliveries, hd]

/-- The tokens of a text are read, one after the other and without a fault. -/
theorem Lexes.untilError_eq {cs : List Char} {ts : List Token} (h : Lexes cs ts [])
    (final : Lexeme) (p : Position) :
    ∃ lexemes : List Lexeme, untilError final (deliveries p (pieces cs)) = lexemes.map .ok ∧
      lexemes.map Lexeme.token = ts ++ [final.token] := by
  generalize hbehind : ([] : List Char) = behind at h
  induction h generalizing p with
  | nil =>
    refine ⟨[final], ?_, rfl⟩
    rw [pieces]
    rfl
  | blank hc _ ih =>
    rw [deliveries_blank p hc]
    exact ih _ hbehind
  | @comment w cs ts behind hw hend _ ih =>
    subst hbehind
    rw [List.append_nil] at hend
    have hstops : ∀ c ∈ cs.head?, isRemark c = false := fun c hc => by simp [isRemark, hend c hc]
    rw [List.cons_append, pieces, Piece.first_of_hash, Piece.spanning_append hw hstops]
    exact ih _ rfl
  | @token t w cs ts behind hw hend _ ih =>
    subst hbehind
    rw [List.append_nil] at hend
    rcases ih (p.after w) rfl with ⟨lexemes, hlexemes, htokens⟩
    refine ⟨⟨t, p⟩ :: lexemes, ?_, by rw [List.map_cons, htokens, List.cons_append]⟩
    rw [pieces_spelled hw hend, List.map_cons, ← hlexemes]
    rfl

/-- A text that is read without a fault has no faulty pieces, and its tokens are read. -/
theorem tokens_of_untilError {ps : List Piece} {final : Lexeme} {p : Position}
    {lexemes : List Lexeme} (h : untilError final (deliveries p ps) = lexemes.map .ok) :
    (∀ piece ∈ ps, ∀ f, piece.kind ≠ .fault f) ∧
      lexemes.map Lexeme.token =
        (ps.filterMap fun piece => piece.kind.token?) ++ [final.token] := by
  induction ps generalizing p lexemes with
  | nil =>
    have hall : [final] = lexemes := (List.map_inj_right fun _ _ => Except.ok.inj).1 h
    exact ⟨by simp, by simp [← hall]⟩
  | cons piece ps ih =>
    rcases piece with ⟨kind, w⟩
    cases kind with
    | token t =>
      cases lexemes with
      | nil => cases h
      | cons l lexemes =>
        rcases List.cons.inj h with ⟨hl, hrest⟩
        rcases ih hrest with ⟨hclean, htokens⟩
        refine ⟨List.forall_mem_cons.2 ⟨by simp, hclean⟩, ?_⟩
        rw [List.map_cons, htokens, ← Except.ok.inj hl]
        rfl
    | blank | comment =>
      rcases ih h with ⟨hclean, htokens⟩
      exact ⟨List.forall_mem_cons.2 ⟨by simp, hclean⟩, htokens⟩
    | fault f => cases lexemes <;> cases h

end LineBasic
