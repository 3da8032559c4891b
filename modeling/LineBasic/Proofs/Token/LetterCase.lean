import LineBasic.Proofs.Token.Spelling
import LineBasic.Token.Stream
import Mathlib.Data.List.Forall2

/-!
# Letter case in program texts

Two texts that differ only in the case of letters outside quoted texts are cut into pieces at the
same places.  Their tokens are the same but for the spellings of identifiers, which are the same in
capitals, and their faults are the same.

Main definitions:

- `SameUpToCase`: characters that are the same but for the case of letters.
- `Recased` and `DiffersInCase`: texts that differ only in the case of letters outside quoted
  texts.
- `Token.capital`: a token with its identifier in capitals.

Main results:

- `Piece.alike_first`: the first pieces of two such texts are alike.
- `map_capital_deliveries`: in capitals their streams deliver the same, at the same positions.
-/

namespace LineBasic

/-! ## Letters and other characters -/

/-- Only letters have a case. -/
theorem toUpper_eq_self_of_not_isAlpha {c : Char} (h : c.isAlpha = false) : c.toUpper = c := by
  refine dif_neg fun hlower => ?_
  have hsmall : c.isLower = true :=
    Bool.and_eq_true_iff.2 ⟨decide_eq_true hlower.1, decide_eq_true hlower.2⟩
  have hletter : c.isAlpha = true := Bool.or_eq_true_iff.2 (.inr hsmall)
  rw [hletter] at h
  cases h

/-- A character is a letter exactly if its capital is one. -/
theorem isAlpha_toUpper (c : Char) : c.toUpper.isAlpha = c.isAlpha := by
  cases h : c.isAlpha with
  | true => exact isAlpha_of_isUpper (isUpper_toUpper h)
  | false => rw [toUpper_eq_self_of_not_isAlpha h, h]

/-- Characters with the same capital are the same or both are letters. -/
theorem eq_or_isAlpha_of_toUpper_eq {c d : Char} (h : c.toUpper = d.toUpper) :
    c = d ∨ c.isAlpha = true ∧ d.isAlpha = true := by
  have hboth : c.isAlpha = d.isAlpha := by rw [← isAlpha_toUpper c, h, isAlpha_toUpper]
  cases hc : c.isAlpha with
  | true => exact .inr ⟨rfl, hboth ▸ hc⟩
  | false =>
    rw [toUpper_eq_self_of_not_isAlpha hc, toUpper_eq_self_of_not_isAlpha (hboth ▸ hc)] at h
    exact .inl h

/-- What is the same for all letters does not tell characters with the same capital apart. -/
theorem eq_of_toUpper_eq {α : Type} {f : Char → α} {a : α}
    (hletter : ∀ c, c.isAlpha = true → f c = a) {c d : Char} (h : c.toUpper = d.toUpper) :
    f c = f d := by
  rcases eq_or_isAlpha_of_toUpper_eq h with rfl | ⟨hc, hd⟩
  · rfl
  · rw [hletter c hc, hletter d hd]

/-- A letter is none of the other characters. -/
theorem ne_of_isAlpha {c d : Char} (h : c.isAlpha = true) (hd : d.isAlpha = false) : c ≠ d := by
  rintro rfl
  rw [h] at hd
  cases hd

theorem isGap_of_isAlpha {c : Char} (h : c.isAlpha = true) : isGap c = false := by
  simp [isGap, ne_of_isAlpha h (show ' '.isAlpha = false from rfl),
    ne_of_isAlpha h (show '\t'.isAlpha = false from rfl)]

theorem isRemark_of_isAlpha {c : Char} (h : c.isAlpha = true) : isRemark c = true := by
  simp [isRemark, ne_of_isAlpha h (show '\r'.isAlpha = false from rfl)]

theorem isQuotable_of_isAlpha {c : Char} (h : c.isAlpha = true) : isQuotable c = true :=
  isQuotable_iff.2 ⟨ne_of_isAlpha h rfl, ne_of_isAlpha h rfl, ne_of_isAlpha h rfl⟩

theorem isAlphanum_of_isAlpha {c : Char} (h : c.isAlpha = true) : c.isAlphanum = true :=
  Bool.or_eq_true_iff.2 (.inl h)

/-- A letter is not the second character of a sign. -/
theorem pairToken?_of_isAlpha (c : Char) {d : Char} (h : d.isAlpha = true) :
    pairToken? c d = none := by
  unfold pairToken?
  split <;> first | rfl | cases h

/-! ## Characters up to case -/

/-- Characters that are the same but for the case of letters. -/
def SameUpToCase (cs ds : List Char) : Prop :=
  cs.map Char.toUpper = ds.map Char.toUpper

namespace SameUpToCase

variable {c d : Char} {cs ds : List Char}

theorem cons_iff : SameUpToCase (c :: cs) (d :: ds) ↔ c.toUpper = d.toUpper ∧ SameUpToCase cs ds :=
  List.cons_eq_cons

theorem length_eq (h : SameUpToCase cs ds) : cs.length = ds.length := by
  have hlength := congrArg List.length h
  rwa [List.length_map, List.length_map] at hlength

theorem append {cs' ds' : List Char} (h : SameUpToCase cs ds) (h' : SameUpToCase cs' ds') :
    SameUpToCase (cs ++ cs') (ds ++ ds') := by
  rw [SameUpToCase, List.map_append, List.map_append, h, h']

/-- A word stays the same in capitals. -/
theorem upper_ofList (h : SameUpToCase cs ds) :
    upper (String.ofList cs) = upper (String.ofList ds) := by
  rw [upper, upper, String.toList_ofList, String.toList_ofList, h]

/-- Characters without case stay the same. -/
theorem eq_of_isDigit (h : SameUpToCase cs ds) (hcs : ∀ c ∈ cs, c.isDigit = true)
    (hds : ∀ d ∈ ds, d.isDigit = true) : cs = ds := by
  have hself {es : List Char} (hes : ∀ e ∈ es, e.isDigit = true) : es.map Char.toUpper = es :=
    (List.map_congr_left fun e he => toUpper_eq_self (.inr (hes e he))).trans (List.map_id _)
  rw [← hself hcs, h, hself hds]

/-- The position behind characters does not depend on their case. -/
theorem after_eq (h : SameUpToCase cs ds) (p : Position) : p.after cs = p.after ds := by
  induction cs generalizing ds p with
  | nil =>
    cases ds with
    | nil => rfl
    | cons d ds => cases h
  | cons c cs ih =>
    cases ds with
    | nil => cases h
    | cons d ds =>
      rcases cons_iff.1 h with ⟨hc, hcs⟩
      have hadvance : p.advance c = p.advance d :=
        eq_of_toUpper_eq (fun e he => if_neg (ne_of_isAlpha he rfl)) hc
      rw [Position.after_cons, Position.after_cons, hadvance, ih hcs]

/-- A class that holds all letters or none makes runs of the same length. -/
theorem runs {p : Char → Bool} {b : Bool} (hp : ∀ c, c.isAlpha = true → p c = b)
    (h : SameUpToCase cs ds) : SameUpToCase (cs.takeWhile p) (ds.takeWhile p) ∧
      SameUpToCase (cs.dropWhile p) (ds.dropWhile p) := by
  induction cs generalizing ds with
  | nil =>
    cases ds with
    | nil => exact ⟨rfl, rfl⟩
    | cons d ds => cases h
  | cons c cs ih =>
    cases ds with
    | nil => cases h
    | cons d ds =>
      rcases cons_iff.1 h with ⟨hc, hcs⟩
      have hclass : p c = p d := eq_of_toUpper_eq hp hc
      cases hpd : p d with
      | true =>
        rw [List.takeWhile_cons_of_pos (hclass.trans hpd), List.takeWhile_cons_of_pos hpd,
          List.dropWhile_cons_of_pos (hclass.trans hpd), List.dropWhile_cons_of_pos hpd]
        exact ⟨cons_iff.2 ⟨hc, (ih hcs).1⟩, (ih hcs).2⟩
      | false =>
        rw [List.takeWhile_cons_of_neg (by simp [hclass, hpd]),
          List.takeWhile_cons_of_neg (by simp [hpd]),
          List.dropWhile_cons_of_neg (by simp [hclass, hpd]),
          List.dropWhile_cons_of_neg (by simp [hpd])]
        exact ⟨rfl, h⟩

end SameUpToCase

/-! ## Tokens in capitals -/

/-- A token with its identifier in capitals. -/
def Token.capital : Token → Token
  | identifier spelling => identifier (upper spelling)
  | t => t

/-- A kind of piece with its identifier in capitals. -/
def PieceKind.capital : PieceKind → PieceKind
  | token t => token t.capital
  | kind => kind

/-- Words that are the same in capitals are the same keyword or identifiers that are the same in
capitals. -/
theorem Token.capital_ofWord {word word' : String} (h : upper word = upper word') :
    (Token.ofWord word).capital = (Token.ofWord word').capital := by
  have hkeyword : Keyword.ofWord? word = Keyword.ofWord? word' := by
    rw [Keyword.ofWord?, Keyword.ofWord?, h]
  unfold Token.ofWord
  rw [hkeyword]
  cases Keyword.ofWord? word' with
  | some k => rfl
  | none => exact congrArg Token.identifier h

/-! ## Recased pieces -/

/-- A piece that is a quoted text. -/
def Piece.IsQuotedText (piece : Piece) : Prop :=
  ∃ content, piece.kind = .token (.text content)

/-- Pieces that are the same but for letter case; quoted texts, numerals and signs are the same. -/
structure Piece.Alike (piece piece' : Piece) : Prop where
  kind : piece.kind.capital = piece'.kind.capital
  text : SameUpToCase piece.text piece'.text

/-- Characters that stand for pieces in some letter case; quoted texts are kept as they are. -/
inductive Recased : List Piece → List Char → Prop where
  | nil : Recased [] []
  | cons {piece ps w ds} : SameUpToCase piece.text w → (piece.IsQuotedText → w = piece.text) →
      Recased ps ds → Recased (piece :: ps) (w ++ ds)

/-- Texts of which the second one is the first one with letters outside quoted texts in another
case. -/
def DiffersInCase (source other : String) : Prop :=
  Recased (pieces source.toList) other.toList

/-- The characters are the same but for letter case. -/
theorem Recased.sameUpToCase {ps : List Piece} {ds : List Char} (h : Recased ps ds) :
    SameUpToCase (ps.flatMap Piece.text) ds := by
  induction h with
  | nil => rfl
  | cons htext _ _ ih => exact htext.append ih

/-! ## Cutting recased texts -/

namespace Piece

variable {c : Char} {rest tail : List Char}

/-- Runs of a class that holds all letters or none are alike. -/
theorem alike_spanning {p : Char → Bool} {b : Bool} {kind : String → PieceKind} {d : Char}
    (hp : ∀ c, c.isAlpha = true → p c = b) (hc : p c = true) (hd : p d = true)
    (hkind : ∀ {w w' : List Char}, (∀ e ∈ w, p e = true) → (∀ e ∈ w', p e = true) →
      SameUpToCase w w' → (kind (String.ofList w)).capital = (kind (String.ofList w')).capital)
    (hsame : SameUpToCase (c :: rest) (d :: tail)) :
    Alike (spanning p kind c rest).1 (spanning p kind d tail).1 := by
  rcases SameUpToCase.cons_iff.1 hsame with ⟨hhead, htail⟩
  have hruns : SameUpToCase (c :: rest.takeWhile p) (d :: tail.takeWhile p) :=
    SameUpToCase.cons_iff.2 ⟨hhead, (htail.runs hp).1⟩
  exact ⟨hkind (List.forall_mem_cons.2 ⟨hc, forall_mem_takeWhile⟩)
    (List.forall_mem_cons.2 ⟨hd, forall_mem_takeWhile⟩) hruns, hruns⟩

/-- A quoted text that is kept, or a quote that is not closed. -/
theorem alike_quoted (hsame : SameUpToCase rest tail)
    (hkept : (quoted rest).1.IsQuotedText → (quoted rest).1.text <+: '"' :: tail) :
    Alike (quoted rest).1 (quoted tail).1 := by
  have hruns := hsame.runs (fun _ => isQuotable_of_isAlpha)
  by_cases hclosed : ∃ behind, rest.dropWhile isQuotable = '"' :: behind
  · rcases hclosed with ⟨behind, hbehind⟩
    have hrest : rest = rest.takeWhile isQuotable ++ '"' :: behind := by
      rw [← hbehind, List.takeWhile_append_dropWhile]
    have hquoted := @quoted_of_closed (rest.takeWhile isQuotable) behind forall_mem_takeWhile
    rw [← hrest] at hquoted
    rw [hquoted] at hkept ⊢
    rcases hkept ⟨_, rfl⟩ with ⟨behind', htail⟩
    have htail' : tail = rest.takeWhile isQuotable ++ '"' :: behind' := by
      simpa using htail.symm
    rw [htail', quoted_of_closed forall_mem_takeWhile]
    exact ⟨rfl, rfl⟩
  · rw [not_exists] at hclosed
    have hopen : ∀ behind, tail.dropWhile isQuotable ≠ '"' :: behind := by
      intro behind htail
      cases hdrop : rest.dropWhile isQuotable with
      | nil =>
        have hlength := hruns.2.length_eq
        rw [hdrop, htail] at hlength
        cases hlength
      | cons e behind' =>
        have hboth := hruns.2
        rw [hdrop, htail] at hboth
        rcases eq_or_isAlpha_of_toUpper_eq (SameUpToCase.cons_iff.1 hboth).1 with rfl | ⟨-, hletter⟩
        · exact hclosed behind' hdrop
        · cases hletter
    rw [quoted_of_open hclosed, quoted_of_open hopen]
    exact ⟨rfl, SameUpToCase.cons_iff.2 ⟨rfl, hruns.1⟩⟩

/-- Signs and stray characters are the same. -/
theorem alike_symbol (hsame : SameUpToCase rest tail) :
    Alike (symbol c rest).1 (symbol c tail).1 := by
  cases rest with
  | nil =>
    cases tail with
    | nil => exact ⟨rfl, rfl⟩
    | cons e tail => cases hsame
  | cons d rest =>
    cases tail with
    | nil => cases hsame
    | cons e tail =>
      have hhead := (SameUpToCase.cons_iff.1 hsame).1
      have hpair : pairToken? c d = pairToken? c e :=
        eq_of_toUpper_eq (fun _ => pairToken?_of_isAlpha c) hhead
      simp only [symbol, hpair]
      cases pairToken? c e with
      | some t => exact ⟨rfl, SameUpToCase.cons_iff.2 ⟨rfl, SameUpToCase.cons_iff.2 ⟨hhead, rfl⟩⟩⟩
      | none => exact ⟨rfl, rfl⟩

/-- The first pieces of texts that are the same but for letter case are alike, if a quoted text is
kept. -/
theorem alike_first {d : Char} (hsame : SameUpToCase (c :: rest) (d :: tail))
    (hkept : (first c rest).1.IsQuotedText → (first c rest).1.text <+: d :: tail) :
    Alike (first c rest).1 (first d tail).1 := by
  rcases SameUpToCase.cons_iff.1 hsame with ⟨hhead, htail⟩
  rcases eq_or_isAlpha_of_toUpper_eq hhead with rfl | ⟨hc, hd⟩
  · unfold first at hkept ⊢
    split
    · rename_i hgap
      exact alike_spanning (fun _ => isGap_of_isAlpha) hgap hgap (fun _ _ _ => rfl) hsame
    split
    · rename_i hhash
      have hremark : isRemark c = true := hhash ▸ rfl
      exact alike_spanning (fun _ => isRemark_of_isAlpha) hremark hremark (fun _ _ _ => rfl) hsame
    split
    · rename_i hdigit
      exact alike_spanning (fun _ => isDigit_eq_false_of_isAlpha) hdigit hdigit
        (fun hw hw' hsame => by rw [hsame.eq_of_isDigit hw hw']) hsame
    split
    · rename_i halpha
      exact alike_spanning (fun _ => isAlphanum_of_isAlpha) (isAlphanum_of_isAlpha halpha)
        (isAlphanum_of_isAlpha halpha)
        (fun _ _ hsame => congrArg PieceKind.token (Token.capital_ofWord hsame.upper_ofList)) hsame
    split
    · rename_i hgap hhash hdigit halpha hquote
      subst hquote
      rw [if_neg hgap, if_neg hhash, if_neg hdigit, if_neg halpha, if_pos rfl] at hkept
      exact alike_quoted htail hkept
    · exact alike_symbol htail
  · rw [first_of_alpha hc, first_of_alpha hd]
    exact alike_spanning (fun _ => isAlphanum_of_isAlpha) (isAlphanum_of_isAlpha hc)
      (isAlphanum_of_isAlpha hd)
      (fun _ _ hsame => congrArg PieceKind.token (Token.capital_ofWord hsame.upper_ofList)) hsame

end Piece

/-! ## Deliveries in capitals -/

/-- A lexeme with its identifier in capitals. -/
def Lexeme.capital (l : Lexeme) : Lexeme :=
  { l with token := l.token.capital }

/-- The pieces of a recased text have the pieces' places, and are alike. -/
theorem forall₂_alike_pieces {cs ds : List Char} (h : Recased (pieces cs) ds) :
    List.Forall₂ Piece.Alike (pieces cs) (pieces ds) := by
  induction cs using pieces.induct generalizing ds with
  | case1 =>
    rw [pieces] at h ⊢
    cases h
    rw [pieces]
    exact .nil
  | case2 c rest ih =>
    rw [pieces] at h ⊢
    have hall := h.sameUpToCase
    rw [List.flatMap_cons, flatMap_text_pieces, Piece.first_text_append] at hall
    cases h with
    | @cons _ _ w ds' htext hkept hrest =>
      cases hds : w ++ ds' with
      | nil =>
        rw [hds] at hall
        cases hall
      | cons d tail =>
        rw [hds] at hall
        have hfirst : Piece.Alike (Piece.first c rest).1 (Piece.first d tail).1 :=
          Piece.alike_first hall fun hquoted => ⟨ds', by rw [← hkept hquoted, hds]⟩
        -- equal lengths put the second cut where the characters of the first piece end
        have hlength : w.length = (Piece.first d tail).1.text.length :=
          htext.length_eq.symm.trans hfirst.text.length_eq
        have hsplit := Piece.first_text_append d tail
        rw [← hds] at hsplit
        have hbehind := (List.append_inj hsplit hlength.symm).2
        rw [pieces, hbehind]
        exact .cons hfirst (ih hrest)

/-- What is delivered for a kind of piece at a position. -/
def PieceKind.delivered (p : Position) : PieceKind → List Delivery
  | token t => [.ok ⟨t, p⟩]
  | fault f => [.error ⟨p, f⟩]
  | blank => []
  | comment => []

theorem deliveries_cons (p : Position) (piece : Piece) (ps : List Piece) :
    deliveries p (piece :: ps) = piece.kind.delivered p ++ deliveries (p.after piece.text) ps := by
  rw [deliveries]
  cases piece.kind <;> rfl

/-- Identifiers are delivered in capitals if they are put in capitals before. -/
theorem PieceKind.map_capital_delivered (p : Position) (kind : PieceKind) :
    (kind.delivered p).map (Except.map Lexeme.capital) = kind.capital.delivered p := by
  cases kind <;> rfl

/-- Streams of alike pieces deliver the same in capitals, at the same positions. -/
theorem map_capital_deliveries {ps ps' : List Piece} (h : List.Forall₂ Piece.Alike ps ps')
    (p : Position) : (deliveries p ps).map (Except.map Lexeme.capital) =
      (deliveries p ps').map (Except.map Lexeme.capital) := by
  induction h generalizing p with
  | nil => rfl
  | cons hpiece _ ih =>
    rw [deliveries_cons, deliveries_cons, List.map_append, List.map_append,
      PieceKind.map_capital_delivered, PieceKind.map_capital_delivered, hpiece.kind,
      hpiece.text.after_eq p, ih]

/-- A stream with its identifiers in capitals. -/
def TokenStream.capital (s : TokenStream) : TokenStream :=
  { s with upcoming := s.upcoming.map (Except.map Lexeme.capital) }

/-- In capitals, the streams of texts that differ only in letter case are the same. -/
theorem DiffersInCase.capital_eq {source other : String} (h : DiffersInCase source other) :
    (TokenStream.ofText source).capital = (TokenStream.ofText other).capital := by
  have hall := Recased.sameUpToCase h
  rw [flatMap_text_pieces] at hall
  have hstop : endPosition source = endPosition other := hall.after_eq .start
  have hupcoming := map_capital_deliveries (forall₂_alike_pieces h) .start
  simp only [TokenStream.capital, TokenStream.ofText, hstop, hupcoming]

end LineBasic
