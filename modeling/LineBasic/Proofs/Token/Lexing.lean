import LineBasic.Proofs.Text.Position
import LineBasic.Proofs.Token.Pattern
import LineBasic.Token.Stream

/-!
# Lexing loses nothing

The stream of a text delivers the tokens and faults among its pieces, each with the position of
its first character, and then the end of the text for ever.  The pieces are cut by the longest
match and make up the whole text, so no character is dropped, read twice or placed wrongly.  Only
the end of the text may have a position that is not behind all others.

Main definitions:

- `Reports`: what pieces report, each at the place where it stands.
- `Lexing`: a text, its pieces, and what is found in it.

Main results:

- `reports_deliveries`: deliveries are what the pieces report.
- `Reports.ordered`: reports have later and later positions.
- `TokenStream.take_eq`: a stream delivers what is upcoming, and then its end for ever.
- `lexing_of_text`: every text is lexed in this way.
-/

namespace LineBasic

/-! ## Reports -/

/-- The tokens and faults of pieces that stand behind `front`, each with the position of its first
character.  Blanks and comments report nothing. -/
inductive Reports : List Char → List Piece → List Delivery → Prop where
  | nil {front} : Reports front [] []
  | token {front t w ps ds} : Reports (front ++ w) ps ds →
      Reports front (⟨.token t, w⟩ :: ps) (.ok ⟨t, Position.start.after front⟩ :: ds)
  | fault {front f w ps ds} : Reports (front ++ w) ps ds →
      Reports front (⟨.fault f, w⟩ :: ps) (.error ⟨Position.start.after front, f⟩ :: ds)
  | blank {front w ps ds} : Reports (front ++ w) ps ds → Reports front (⟨.blank, w⟩ :: ps) ds
  | comment {front w ps ds} : Reports (front ++ w) ps ds → Reports front (⟨.comment, w⟩ :: ps) ds

/-- Deliveries are what the pieces report. -/
theorem reports_deliveries (front : List Char) (ps : List Piece) :
    Reports front ps (deliveries (Position.start.after front) ps) := by
  induction ps generalizing front with
  | nil => exact .nil
  | cons piece rest ih =>
    rcases piece with ⟨kind, w⟩
    have hrest := ih (front ++ w)
    rw [Position.after_append] at hrest
    cases kind with
    | token t => exact .token hrest
    | blank => exact .blank hrest
    | comment => exact .comment hrest
    | fault f => exact .fault hrest

/-- The position that a delivery carries. -/
def positionOf : Delivery → Position
  | .ok l => l.position
  | .error e => e.position

namespace Reports

variable {front : List Char} {ps : List Piece} {ds : List Delivery}

/-- Each report carries the position where the text from some piece on begins. -/
theorem exists_split (h : Reports front ps ds) (hne : ∀ piece ∈ ps, piece.text ≠ []) {d : Delivery}
    (hd : d ∈ ds) : ∃ passed rest, rest ≠ [] ∧ passed ++ rest = ps.flatMap Piece.text ∧
      positionOf d = Position.start.after (front ++ passed) := by
  -- what is found behind the first piece is found behind its characters
  have hlater {front w : List Char} {kind : PieceKind} {ps : List Piece}
      (hfound : ∃ passed rest, rest ≠ [] ∧ passed ++ rest = ps.flatMap Piece.text ∧
        positionOf d = Position.start.after (front ++ w ++ passed)) :
      ∃ passed rest, rest ≠ [] ∧ passed ++ rest = (⟨kind, w⟩ :: ps).flatMap Piece.text ∧
        positionOf d = Position.start.after (front ++ passed) := by
    rcases hfound with ⟨passed, rest, hrest, hall, hposition⟩
    refine ⟨w ++ passed, rest, hrest, ?_, ?_⟩
    · rw [List.append_assoc, hall, List.flatMap_cons]
    · rw [hposition, List.append_assoc]
  have hhere {front w : List Char} {kind : PieceKind} {ps : List Piece}
      (hw : ∀ piece ∈ ⟨kind, w⟩ :: ps, piece.text ≠ [])
      (hposition : positionOf d = Position.start.after front) :
      ∃ passed rest, rest ≠ [] ∧ passed ++ rest = (⟨kind, w⟩ :: ps).flatMap Piece.text ∧
        positionOf d = Position.start.after (front ++ passed) := by
    refine ⟨[], _, ?_, rfl, by rw [hposition, List.append_nil]⟩
    exact List.append_ne_nil_of_left_ne_nil (hw _ List.mem_cons_self) _
  induction h with
  | nil => cases hd
  | token _ ih =>
    rcases List.mem_cons.1 hd with rfl | hd
    · exact hhere hne rfl
    · exact hlater (ih (fun piece hpiece => hne piece (List.mem_cons_of_mem _ hpiece)) hd)
  | fault _ ih =>
    rcases List.mem_cons.1 hd with rfl | hd
    · exact hhere hne rfl
    · exact hlater (ih (fun piece hpiece => hne piece (List.mem_cons_of_mem _ hpiece)) hd)
  | blank _ ih =>
    exact hlater (ih (fun piece hpiece => hne piece (List.mem_cons_of_mem _ hpiece)) hd)
  | comment _ ih =>
    exact hlater (ih (fun piece hpiece => hne piece (List.mem_cons_of_mem _ hpiece)) hd)

/-- A token that is reported is that of some piece. -/
theorem exists_piece_of_mem (h : Reports front ps ds) {l : Lexeme} (hl : .ok l ∈ ds) :
    ∃ w, ⟨.token l.token, w⟩ ∈ ps := by
  have hlater {piece : Piece} {ps : List Piece} (hfound : ∃ w, ⟨.token l.token, w⟩ ∈ ps) :
      ∃ w, ⟨.token l.token, w⟩ ∈ piece :: ps := by
    rcases hfound with ⟨w, hw⟩
    exact ⟨w, List.mem_cons_of_mem _ hw⟩
  induction h with
  | nil => cases hl
  | @token _ _ w _ _ _ ih =>
    rcases List.mem_cons.1 hl with heq | hl
    · cases heq
      exact ⟨w, List.mem_cons_self⟩
    · exact hlater (ih hl)
  | fault _ ih =>
    rcases List.mem_cons.1 hl with heq | hl
    · cases heq
    · exact hlater (ih hl)
  | blank _ ih => exact hlater (ih hl)
  | comment _ ih => exact hlater (ih hl)

/-- Reports behind a piece have later positions than the piece, in less than 2 ^ 32 characters. -/
theorem before_of_mem {w : List Char} (h : Reports (front ++ w) ps ds) (hw : w ≠ [])
    (hne : ∀ piece ∈ ps, piece.text ≠ [])
    (hsize : (front ++ w ++ ps.flatMap Piece.text).length < UInt32.size) {d : Delivery}
    (hd : d ∈ ds) : (Position.start.after front).Before (positionOf d) := by
  rcases h.exists_split hne hd with ⟨passed, rest, hrest, hall, hposition⟩
  rw [← hall, ← List.append_assoc] at hsize
  have hthere : ExactBehind (front ++ w ++ passed) := exactBehind_of_append hsize hrest
  rw [List.append_assoc, List.append_assoc] at hsize
  have hhere : ExactBehind front :=
    exactBehind_of_append hsize (List.append_ne_nil_of_left_ne_nil hw _)
  rw [List.append_assoc] at hthere hposition
  rw [hposition]
  exact hthere.before hhere (List.append_ne_nil_of_left_ne_nil hw passed)

/-- Reports have later and later positions, in less than 2 ^ 32 characters. -/
theorem ordered (h : Reports front ps ds) (hne : ∀ piece ∈ ps, piece.text ≠ [])
    (hsize : (front ++ ps.flatMap Piece.text).length < UInt32.size) :
    (ds.map positionOf).Pairwise Position.Before := by
  induction h with
  | nil => exact .nil
  | token hrest ih =>
    rcases List.forall_mem_cons.1 hne with ⟨hw, hne⟩
    rw [List.flatMap_cons, ← List.append_assoc] at hsize
    refine List.pairwise_cons.2 ⟨?_, ih hne hsize⟩
    rw [List.forall_mem_map]
    exact fun d hd => hrest.before_of_mem hw hne hsize hd
  | fault hrest ih =>
    rcases List.forall_mem_cons.1 hne with ⟨hw, hne⟩
    rw [List.flatMap_cons, ← List.append_assoc] at hsize
    refine List.pairwise_cons.2 ⟨?_, ih hne hsize⟩
    rw [List.forall_mem_map]
    exact fun d hd => hrest.before_of_mem hw hne hsize hd
  | blank _ ih | comment _ ih =>
    rw [List.flatMap_cons, ← List.append_assoc] at hsize
    exact ih (List.forall_mem_cons.1 hne).2 hsize

end Reports

/-! ## The stream -/

/-- Of a list that goes on with one element for ever, a beginning does not show how often the
element stands there. -/
theorem take_append_replicate_succ {α : Type} (xs : List α) (a : α) (n : Nat) :
    (xs ++ List.replicate (n + 1) a).take n = (xs ++ List.replicate n a).take n := by
  have henough : n ≤ (xs ++ List.replicate n a).length := by simp
  rw [List.replicate_succ', ← List.append_assoc, List.take_append_of_le_length henough]

/-- A stream delivers what is upcoming, and then its end for ever. -/
theorem TokenStream.take_eq (s : TokenStream) (n : Nat) :
    s.take n = (s.upcoming ++ List.replicate n (Except.ok s.final)).take n := by
  induction n generalizing s with
  | zero => rfl
  | succ n ih =>
    rcases s with ⟨upcoming, stop⟩
    cases upcoming with
    | nil =>
      have hend := ih ⟨[], stop⟩
      rw [List.nil_append, List.take_replicate, Nat.min_self] at hend ⊢
      rw [List.replicate_succ, ← hend]
      rfl
    | cons d later =>
      have hlater := (take_append_replicate_succ ..).trans (ih ⟨later, stop⟩).symm
      exact congrArg (d :: ·) hlater.symm

/-- The tokens of a text are spelled by their patterns. -/
theorem exists_matches_of_mem_upcoming {text : String} {l : Lexeme}
    (h : .ok l ∈ (TokenStream.ofText text).upcoming) : ∃ w, Matches (.token l.token) w := by
  rcases (reports_deliveries [] (pieces text.toList)).exists_piece_of_mem h with ⟨w, hw⟩
  exact ⟨w, matches_of_mem_pieces hw (by simp)⟩

/-- The end of a text is never delivered before the stream is used up. -/
theorem token_ne_endOfInput_of_mem_upcoming {text : String} {l : Lexeme}
    (h : .ok l ∈ (TokenStream.ofText text).upcoming) : l.token ≠ .endOfInput := by
  rcases exists_matches_of_mem_upcoming h with ⟨w, hw⟩
  exact hw.ne_endOfInput

/-! ## The lexing of a text -/

/-- A text with the pieces it is cut into and the tokens and faults that are found in it. -/
structure Lexing (text : String) (ps : List Piece) (found : List Delivery) : Prop where
  /-- The pieces are cut by the longest match. -/
  cut : Cut text.toList ps
  /-- Nothing is lost. -/
  text_eq : ps.flatMap Piece.text = text.toList
  /-- What is found are the tokens and faults among the pieces, where they begin. -/
  reports : Reports [] ps found
  /-- The stream delivers what is found, and then the end for ever. -/
  take_eq : ∀ n, (TokenStream.ofText text).take n =
    (found ++ List.replicate n (Except.ok (Lexeme.mk .endOfInput (endPosition text)))).take n
  /-- The end is found nowhere before. -/
  token_ne : ∀ l, .ok l ∈ found → l.token ≠ .endOfInput
  /-- Positions increase, -/
  ordered : (found.map positionOf).Pairwise Position.Before
  /-- and are all before the end, unless rows or columns are used up there. -/
  before_end : ¬ WrapsAtEnd text → ∀ d ∈ found, (positionOf d).Before (endPosition text)
  /-- Then the end is before all of them. -/
  end_before : WrapsAtEnd text → ∀ d ∈ found, (endPosition text).Before (positionOf d)
  /-- Where a piece begins is the position at the offset of its first byte, -/
  position_eq : ∀ front behind, ps = front ++ behind →
    position? text (String.ofList (front.flatMap Piece.text)).utf8ByteSize =
      some (Position.start.after (front.flatMap Piece.text))
  /-- which counts the rows, and the characters of the last one, in front of the piece. -/
  exact : ∀ front behind, ps = front ++ behind → behind ≠ [] →
    Position.start.after (front.flatMap Piece.text) =
      ⟨1 + (front.flatMap Piece.text).count '\n',
        1 + ((front.flatMap Piece.text).rtakeWhile (· != '\n')).length⟩
  /-- The end is the position behind the last byte. -/
  end_eq : position? text text.utf8ByteSize = some (endPosition text)

/-- A text whose first piece is known is cut further behind it. -/
theorem pieces_cons {c : Char} {rest after : List Char} {piece : Piece} {ps : List Piece}
    (hfirst : Piece.first c rest = (piece, after)) (hafter : pieces after = ps) :
    pieces (c :: rest) = piece :: ps := by
  rw [pieces, hfirst, hafter]

/-- A piece that is cut off has characters. -/
theorem text_ne_nil_of_mem_pieces {cs : List Char} {piece : Piece} (h : piece ∈ pieces cs) :
    piece.text ≠ [] := by
  fun_induction pieces cs with
  | case1 => cases h
  | case2 c rest ih =>
    rcases List.mem_cons.1 h with rfl | hlater
    · exact Piece.first_text_ne_nil c rest
    · exact ih hlater

/-- Every text of less than 2 ^ 32 bytes is lexed without loss and in order.  Only the end has a
position in front of all others, if the text is one row of 2 ^ 32 - 1 characters or consists of as
many line feeds. -/
theorem lexing_of_text (text : String) (hsize : text.utf8ByteSize < UInt32.size) :
    Lexing text (pieces text.toList) (TokenStream.ofText text).upcoming := by
  have hall := flatMap_text_pieces text.toList
  have hne : ∀ piece ∈ pieces text.toList, piece.text ≠ [] :=
    fun piece => text_ne_nil_of_mem_pieces
  have hreports : Reports [] (pieces text.toList) (TokenStream.ofText text).upcoming :=
    reports_deliveries [] _
  have hsplit {d : Delivery} (hd : d ∈ (TokenStream.ofText text).upcoming) :
      ∃ passed rest, rest ≠ [] ∧ text.toList = passed ++ rest ∧
        positionOf d = Position.start.after passed ∧ ExactBehind passed := by
    rcases hreports.exists_split hne hd with ⟨passed, rest, hrest, heq, hposition⟩
    have htext : text.toList = passed ++ rest := by rw [heq, hall]
    exact ⟨passed, rest, hrest, htext, hposition,
      exactBehind_of_toList_eq hsize htext (.inl hrest)⟩
  have hcut {front behind : List Piece} (hpieces : pieces text.toList = front ++ behind) :
      text.toList = front.flatMap Piece.text ++ behind.flatMap Piece.text := by
    rw [← List.flatMap_append, ← hpieces, hall]
  constructor
  · exact cut_pieces text.toList
  · exact hall
  · exact hreports
  · exact fun n => TokenStream.take_eq _ n
  · exact fun l => token_ne_endOfInput_of_mem_upcoming
  · exact hreports.ordered hne (by rw [hall]; exact length_toList_lt hsize)
  · intro hfits d hd
    rcases hsplit hd with ⟨passed, rest, hrest, htext, hposition, hexact⟩
    have hend : ExactBehind (passed ++ rest) := by
      rw [← htext]
      exact exactBehind_of_toList_eq hsize (List.append_nil _).symm (.inr hfits)
    rw [hposition, endPosition, htext]
    exact hend.before hexact hrest
  · intro hwraps d hd
    rcases hsplit hd with ⟨passed, rest, -, -, hposition, hexact⟩
    rw [hposition]
    exact hwraps.before hexact
  · intro front behind hpieces
    exact position?_of_append (hcut hpieces)
  · intro front behind hpieces hbehind
    obtain ⟨piece, later, rfl⟩ := List.exists_cons_of_ne_nil hbehind
    have hpiece : piece ∈ pieces text.toList := by
      rw [hpieces]
      exact List.mem_append_right _ List.mem_cons_self
    refine (exactBehind_of_toList_eq hsize (hcut hpieces) (.inl ?_)).after_start
    exact List.append_ne_nil_of_left_ne_nil (hne piece hpiece) _
  · exact position?_utf8ByteSize text

/-- A text with a character of two bytes, two faults and a comment, of which nothing is lost. -/
theorem lexing_of_faulty_text :
    "A\t\"é\"! \"b\r\n# c".utf8ByteSize < UInt32.size ∧
      Lexing "A\t\"é\"! \"b\r\n# c"
        [⟨.token (.identifier "A"), ['A']⟩, ⟨.blank, ['\t']⟩, ⟨.token (.text "é"), ['"', 'é', '"']⟩,
          ⟨.fault .loneExclamation, ['!']⟩, ⟨.blank, [' ']⟩, ⟨.fault .unterminatedText, ['"', 'b']⟩,
          ⟨.token .lineBreak, ['\r', '\n']⟩, ⟨.comment, ['#', ' ', 'c']⟩]
        [.ok ⟨.identifier "A", ⟨1, 1⟩⟩, .ok ⟨.text "é", ⟨1, 3⟩⟩, .error ⟨⟨1, 6⟩, .loneExclamation⟩,
          .error ⟨⟨1, 8⟩, .unterminatedText⟩, .ok ⟨.lineBreak, ⟨1, 10⟩⟩] := by
  have hsize : "A\t\"é\"! \"b\r\n# c".utf8ByteSize < UInt32.size := by decide
  have hlexing {ps found} (hpieces : pieces "A\t\"é\"! \"b\r\n# c".toList = ps)
      (hfound : deliveries .start ps = found) : Lexing "A\t\"é\"! \"b\r\n# c" ps found := by
    subst hpieces hfound
    exact lexing_of_text _ hsize
  have htext : "A\t\"é\"! \"b\r\n# c".toList =
      ['A', '\t', '"', 'é', '"', '!', ' ', '"', 'b', '\r', '\n', '#', ' ', 'c'] := by decide
  refine ⟨hsize, hlexing ?_ rfl⟩
  rw [htext]
  iterate 8 refine pieces_cons rfl ?_
  exact show pieces [] = [] by rw [pieces]

/-- A letter over and over is one word. -/
theorem pieces_replicate {c : Char} (hc : c.isAlpha = true) (n : Nat) :
    pieces (List.replicate (n + 1) c) =
      [⟨.token (.ofWord (String.ofList (List.replicate (n + 1) c))),
        List.replicate (n + 1) c⟩] := by
  have hword : c.isAlphanum = true := by simp [Char.isAlphanum, hc]
  have hfirst : Piece.first c (List.replicate n c) =
      (⟨.token (.ofWord (String.ofList (c :: List.replicate n c))), c :: List.replicate n c⟩,
        []) := by
    rw [Piece.first_of_alpha hc, Piece.spanning, List.takeWhile_replicate, if_pos hword,
      List.dropWhile_replicate, if_pos hword]
  rw [List.replicate_succ]
  exact pieces_cons hfirst (by rw [pieces])

/-- A row of 2 ^ 32 - 1 letters is one word at the start of the text, and then comes the end, in
front of it. -/
theorem end_delivered_before_start :
    let text := String.ofList (List.replicate (UInt32.size - 1) 'A')
    text.utf8ByteSize < UInt32.size ∧
      (TokenStream.ofText text).take 2 =
        [.ok ⟨.ofWord text, ⟨1, 1⟩⟩, .ok ⟨.endOfInput, ⟨1, 0⟩⟩] ∧
      ¬ (⟨1, 1⟩ : Position).Before ⟨1, 0⟩ := by
  intro text
  have hbytes : text.utf8ByteSize = (UInt32.size - 1) * 1 := utf8ByteSize_ofList_replicate _ _
  have hend : endPosition text = ⟨1, 0⟩ := endPosition_replicate (by decide) _
  have hword : pieces text.toList = [⟨.token (.ofWord text), text.toList⟩] := by
    have hcount : UInt32.size - 1 = (UInt32.size - 2) + 1 := by decide
    have hletters := pieces_replicate (show 'A'.isAlpha = true by decide) (UInt32.size - 2)
    rw [← hcount] at hletters
    rw [String.toList_ofList]
    exact hletters
  have hupcoming : (TokenStream.ofText text).upcoming = [.ok ⟨.ofWord text, ⟨1, 1⟩⟩] := by
    rw [TokenStream.ofText, hword]
    rfl
  have hfinal : (TokenStream.ofText text).final = ⟨.endOfInput, ⟨1, 0⟩⟩ := by
    rw [TokenStream.final, TokenStream.ofText, hend]
  rw [hbytes, TokenStream.take_eq, hupcoming, hfinal]
  exact ⟨by decide, rfl, by unfold Position.Before; decide⟩

end LineBasic
