import Mathlib
import LineBasic.Proofs.Grammar.Acceptance
import LineBasic.Proofs.Grammar.Occurrence
import LineBasic.Proofs.Token.Lexes

/-!
# Layout disregarded

Blanks between tokens, comments, lines without a statement and a line break at the end of the text
leave no trace in the program that the text is.

Main definitions:

- `IsBlanks`, `IsComment` and `IsBlankLine`: what may be inserted.
- `Relaid`: texts that differ by one such insertion, or by a last line break.

Main results:

- `Relaid.exists_lexes`: a text that is laid out in another way has tokens of the same lines.
- `Program.parse_of_relaid`: a text that is laid out in another way is the same program.
-/

namespace LineBasic

open Grammar

/-! ## Line breaks between lines -/

namespace Grammar

variable {ts us vs : List Token} {lines : List Line}

/-- A line break can stand behind another one. -/
theorem Lines.double_break (h : Lines (us ++ .lineBreak :: vs) lines) :
    Lines (us ++ .lineBreak :: .lineBreak :: vs) lines := by
  generalize hall : us ++ .lineBreak :: vs = ts at h
  induction h generalizing us with
  | last hhere => exact absurd rfl (hhere.standsInLine .lineBreak (by simp [← hall])).2
  | @next ts here us' rest hhere hrest ih =>
    rcases append_cons_eq_append hall with ⟨more, rfl, hmore⟩ | ⟨more, hinside, -⟩
    · rw [List.append_assoc]
      cases more with
      | nil =>
        obtain rfl : us' = vs := (List.cons.inj hmore).2
        exact .next hhere (.next .blank hrest)
      | cons t more =>
        rcases List.cons.inj hmore with ⟨rfl, hus⟩
        exact .next hhere (ih hus.symm)
    · exact absurd rfl (hhere.standsInLine .lineBreak (by simp [hinside])).2

/-- The last line can be closed by a line break. -/
theorem Lines.append_break (h : Lines ts lines) : Lines (ts ++ [.lineBreak]) lines := by
  induction h with
  | last hhere => simpa using Lines.next hhere (.last .blank)
  | next hhere _ ih =>
    rw [List.append_assoc]
    exact .next hhere ih

/-- Nothing is no line. -/
theorem Lines.eq_nil (h : Lines [] lines) : lines = [] := by
  generalize hnil : ([] : List Token) = ts at h
  cases h with
  | last hhere =>
    cases hhere with
    | blank => rfl
    | line => cases hnil
  | next => simp at hnil

/-- A line break that closes the last line can be left out. -/
theorem Lines.of_append_break (h : Lines (ts ++ [.lineBreak]) lines) : Lines ts lines := by
  generalize hall : ts ++ [.lineBreak] = us at h
  induction h generalizing ts with
  | last hhere => exact absurd rfl (hhere.standsInLine .lineBreak (by simp [← hall])).2
  | @next ts' here us' rest hhere hrest ih =>
    rcases append_cons_eq_append hall with ⟨more, rfl, hmore⟩ | ⟨more, hinside, -⟩
    · cases more with
      | nil =>
        obtain rfl : us' = [] := (List.cons.inj hmore).2
        rw [hrest.eq_nil, List.append_nil, List.append_nil]
        exact .last hhere
      | cons t more =>
        rcases List.cons.inj hmore with ⟨rfl, hus⟩
        exact .next hhere (ih hus.symm)
    · exact absurd rfl (hhere.standsInLine .lineBreak (by simp [hinside])).2

end Grammar

/-! ## Programs as tokens -/

/-- A text that is a program has no faulty piece, and its tokens are the lines of the program. -/
theorem Program.lines_of_parse {text : String} {program : Program}
    (h : Program.parse text = .ok program) :
    (∀ piece ∈ pieces text.toList, ∀ f, piece.kind ≠ .fault f) ∧
      Lines ((pieces text.toList).filterMap fun piece => piece.kind.token?) program.lines := by
  rcases Program.derives_of_parse h with ⟨lexemes, hlexemes, hrule⟩
  rcases tokens_of_untilError hlexemes with ⟨hclean, htokens⟩
  rw [htokens] at hrule
  generalize hall : _ ++ [(TokenStream.ofText text).final.token] = tokens at hrule
  cases hrule with
  | mk hlines =>
    rw [List.append_inj_left' hall rfl]
    exact ⟨hclean, hlines⟩

/-- A text whose tokens are the lines of a program is this program. -/
theorem Program.parse_of_lexes {text : String} {ts : List Token} {program : Program}
    (h : Lexes text.toList ts []) (hlines : Lines ts program.lines) :
    Program.parse text = .ok program := by
  rcases h.untilError_eq (TokenStream.ofText text).final .start with ⟨lexemes, hlexemes, htokens⟩
  refine Program.parse_of_derives hlexemes ?_
  rw [htokens]
  exact .mk hlines

/-! ## Changes of layout -/

/-- Spaces and tabs. -/
def IsBlanks (w : List Char) : Prop :=
  ∀ c ∈ w, c = ' ' ∨ c = '\t'

/-- A hash and a text without a carriage return. -/
def IsComment (w : List Char) : Prop :=
  ∃ text, w = '#' :: text ∧ ∀ c ∈ text, c ≠ '\r'

/-- Blanks and perhaps a comment, with a line break behind. -/
def IsBlankLine (w : List Char) : Prop :=
  ∃ gap comment, IsBlanks gap ∧ (comment = [] ∨ IsComment comment) ∧
    w = gap ++ comment ++ ['\r', '\n']

/-- Texts of which the second one is the first one with another layout. -/
inductive Relaid : List Char → List Char → Prop where
  /-- Blanks are inserted directly in front of a token. -/
  | blanks {cs ps qs piece t gap} : pieces cs = ps ++ piece :: qs → piece.kind = .token t →
      IsBlanks gap →
      Relaid cs (ps.flatMap Piece.text ++ gap ++ (piece :: qs).flatMap Piece.text)
  /-- Blanks are inserted at the end. -/
  | lastBlanks {cs gap} : IsBlanks gap → Relaid cs (cs ++ gap)
  /-- A comment is inserted directly in front of a line break. -/
  | comment {front behind w} : IsComment w →
      Relaid (front ++ '\r' :: '\n' :: behind) (front ++ w ++ '\r' :: '\n' :: behind)
  /-- A comment is inserted at the end. -/
  | lastComment {cs w} : IsComment w → Relaid cs (cs ++ w)
  /-- A line without a statement is inserted at the start. -/
  | firstLine {cs line} : IsBlankLine line → Relaid cs (line ++ cs)
  /-- A line without a statement is inserted directly behind a line break. -/
  | line {front behind line} : IsBlankLine line →
      Relaid (front ++ '\r' :: '\n' :: behind) (front ++ '\r' :: '\n' :: (line ++ behind))
  /-- A line break is appended. -/
  | append {cs} : Relaid cs (cs ++ ['\r', '\n'])
  /-- A line break at the end is removed. -/
  | remove {cs} : Relaid (cs ++ ['\r', '\n']) cs

namespace Lexes

variable {cs behind : List Char} {ts : List Token}

/-- Blanks behind tokens. -/
theorem append_blanks {gap : List Char} (hgap : IsBlanks gap) (h : Lexes cs ts behind) :
    Lexes (cs ++ gap) ts behind := by
  have hisGap : ∀ c ∈ gap, isGap c = true := fun c hc => isGap_iff.2 (hgap c hc)
  refine h.append_filler ?_ (fun c hc t => ?_) fun c hc => ?_
  · rw [← List.append_nil gap]
    exact Lexes.nil.blanks hisGap
  · exact t.prolongedBy_of_isGap (hisGap c (List.mem_of_mem_head? hc))
  · rcases hgap c hc with rfl | rfl <;> rfl

/-- A comment behind tokens, in front of a carriage return or at the end. -/
theorem append_comment {w : List Char} (hw : IsComment w) (hend : ∀ c ∈ behind.head?, c = '\r')
    (h : Lexes cs ts behind) : Lexes (cs ++ w) ts behind := by
  rcases hw with ⟨text, rfl, htext⟩
  have hremark : ∀ c ∈ text, isRemark c = true := fun c hc => by simpa [isRemark] using htext c hc
  refine h.append_filler ?_ (fun c hc t => ?_) (List.forall_mem_cons.2 ⟨rfl, hremark⟩)
  · rw [← List.append_nil ('#' :: text)]
    exact .comment hremark hend .nil
  · cases hc
    cases t <;> rfl

/-- A line break is a token. -/
theorem lineBreak (behind : List Char) : Lexes ['\r', '\n'] [.lineBreak] behind := by
  have hspelled : Token.lineBreak.SpelledAs ['\r', '\n'] := .sign (by simp [signs])
  exact .token hspelled (fun _ _ => rfl) .nil

/-- A line without a statement is its line break. -/
theorem of_isBlankLine {line : List Char} (h : IsBlankLine line) (behind : List Char) :
    Lexes line [.lineBreak] behind := by
  rcases h with ⟨gap, comment, hgap, hcomment, rfl⟩
  have hblanks : Lexes gap [] (['\r', '\n'] ++ behind) := Lexes.nil.append_blanks hgap
  have hfront : Lexes (gap ++ comment) [] (['\r', '\n'] ++ behind) := by
    rcases hcomment with rfl | hcomment
    · rwa [List.append_nil]
    · exact hblanks.append_comment hcomment (by simp)
  exact hfront.append (lineBreak behind)

end Lexes

/-- A text without faults that is laid out in another way has tokens of the same lines. -/
theorem Relaid.exists_lexes {cs ds : List Char} {lines : List Line} (h : Relaid cs ds)
    (hclean : ∀ piece ∈ pieces cs, ∀ f, piece.kind ≠ .fault f)
    (hlines : Lines ((pieces cs).filterMap fun piece => piece.kind.token?) lines) :
    ∃ ts, Lexes ds ts [] ∧ Lines ts lines := by
  have hall := (cut_pieces cs).lexes hclean
  rw [flatMap_text_pieces] at hall
  generalize hts : (pieces cs).filterMap _ = ts at hlines hall
  cases h with
  | @blanks _ ps qs piece t gap hpieces _ hgap =>
    have hcut := cut_pieces cs
    rw [hpieces] at hclean hts hcut
    rcases List.forall_mem_append.1 hclean with ⟨hps, hqs⟩
    have hfront := (lexes_of_cut hcut hps).append_blanks hgap
    rw [← List.append_nil ((piece :: qs).flatMap Piece.text)] at hfront
    have hwhole := hfront.append (hcut.of_append.lexes hqs)
    rw [← List.filterMap_append, hts] at hwhole
    exact ⟨ts, hwhole, hlines⟩
  | lastBlanks hgap => exact ⟨ts, hall.append_blanks hgap, hlines⟩
  | comment hw =>
    obtain ⟨us, vs, rfl, hus, hvs⟩ := hall.exists_of_lineBreak
    have hfront := hus.append_comment hw (by simp)
    exact ⟨_, hfront.append ((Lexes.lineBreak _).append hvs), hlines⟩
  | lastComment hw => exact ⟨ts, hall.append_comment hw (by simp), hlines⟩
  | firstLine hline =>
    exact ⟨_, (Lexes.of_isBlankLine hline _).append hall, .next .blank hlines⟩
  | line hline =>
    obtain ⟨us, vs, rfl, hus, hvs⟩ := hall.exists_of_lineBreak
    refine ⟨_, (hus.congr ?_).append ((Lexes.lineBreak _).append
      ((Lexes.of_isBlankLine hline _).append hvs)), hlines.double_break⟩
    exact fun c hc => .inl hc
  | append =>
    refine ⟨_, (hall.congr ?_).append (Lexes.lineBreak _), hlines.append_break⟩
    exact fun c hc => .inr (Option.mem_some.1 hc).symm
  | remove =>
    obtain ⟨us, vs, rfl, hus, hvs⟩ := hall.exists_of_lineBreak
    obtain rfl := hvs.eq_nil
    exact ⟨us, hus.congr (by simp), hlines.of_append_break⟩

/-- Layout leaves no trace: a program that is laid out in another way is the same program. -/
theorem Program.parse_of_relaid {source other : String} {program : Program}
    (h : Program.parse source = .ok program) (hrelaid : Relaid source.toList other.toList) :
    Program.parse other = .ok program := by
  rcases Program.lines_of_parse h with ⟨hclean, hlines⟩
  rcases hrelaid.exists_lexes hclean hlines with ⟨ts, hlexes, hlines'⟩
  exact Program.parse_of_lexes hlexes hlines'

/-- A remark is put in front of a line break that stands directly behind a statement. -/
theorem Program.parse_of_remark :
    Program.parse "10 GOTO 20\r\n20 END" = .ok ⟨[⟨10, .goto 20⟩, ⟨20, .stop⟩]⟩ ∧
      Relaid "10 GOTO 20\r\n20 END".toList "10 GOTO 20# to the end\r\n20 END".toList ∧
      Program.parse "10 GOTO 20# to the end\r\n20 END" = .ok ⟨[⟨10, .goto 20⟩, ⟨20, .stop⟩]⟩ := by
  have hparse : Program.parse "10 GOTO 20\r\n20 END" = .ok ⟨[⟨10, .goto 20⟩, ⟨20, .stop⟩]⟩ := by
    cbv
  have hrelaid :
      Relaid "10 GOTO 20\r\n20 END".toList "10 GOTO 20# to the end\r\n20 END".toList := by
    have hsource : "10 GOTO 20\r\n20 END".toList =
        "10 GOTO 20".toList ++ '\r' :: '\n' :: "20 END".toList := by cbv
    have hother : "10 GOTO 20# to the end\r\n20 END".toList =
        "10 GOTO 20".toList ++ "# to the end".toList ++ '\r' :: '\n' :: "20 END".toList := by cbv
    rw [hsource, hother]
    exact .comment ⟨" to the end".toList, by cbv, by simp⟩
  exact ⟨hparse, hrelaid, Program.parse_of_relaid hparse hrelaid⟩

end LineBasic
