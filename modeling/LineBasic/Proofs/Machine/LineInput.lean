import LineBasic.Proofs.Machine.Execution
import LineBasic.Proofs.Machine.NumberLines
import LineBasic.Proofs.Text.Numeral

/-!
# Lines taken from an input

A value is read off the lines that bytes begin with.  A text takes one line; a number takes all
lines up to the first that a number is typed on, unless a line that is no text comes before.  What
is behind the lines that are taken is left as it is.

Main definitions:

- `FirstLine` and `ReadOff`: the lines that bytes begin with, and the bytes behind them.
- `LineHolds` and `IsRefused`: lines with a number, and lines of text without one.
- `Stripped`: a line of text without what ends it.
- `NumberLines` and `TextLines`: the lines that a value takes.
- `AnswersBy`: reading answers what the lines answer that it takes.

Main results:

- `readOff_iff`: the lines of an input are what is read off its bytes.
- `readNumber_answersBy` and `readText_answersBy`: what reading answers, by the lines it takes.
- `line_input`: which bytes of an input a number or a text takes, and what it is.
-/

namespace LineBasic.Machine

/-! ## Lines that bytes begin with -/

/-- The first line of bytes and the bytes behind it.  A line goes on through its line feed, and to
the end if there is none. -/
inductive FirstLine : List UInt8 → List UInt8 → List UInt8 → Prop
  | ended {front rest : List UInt8} (hfront : lineFeed ∉ front) :
    FirstLine (front ++ lineFeed :: rest) (front ++ [lineFeed]) rest
  | last {line : List UInt8} (hne : line ≠ []) (hline : lineFeed ∉ line) : FirstLine line line []

/-- Lines that bytes begin with, one after the other, and the bytes behind them. -/
inductive ReadOff : List UInt8 → List (List UInt8) → List UInt8 → Prop
  | nil {bytes : List UInt8} : ReadOff bytes [] bytes
  | cons {bytes line behind rest : List UInt8} {lines : List (List UInt8)}
      (hfirst : FirstLine bytes line behind) (hlater : ReadOff behind lines rest) :
    ReadOff bytes (line :: lines) rest

/-- Bytes behind a line feed have lines of their own. -/
theorem inputLines_of_ended {front : List UInt8} (hfront : lineFeed ∉ front)
    (rest : List UInt8) :
    inputLines (front ++ lineFeed :: rest) = (front ++ [lineFeed]) :: inputLines rest := by
  induction front with
  | nil =>
    rw [List.nil_append, inputLines_cons]
    cases inputLines rest <;> rfl
  | cons b front ih =>
    rcases List.ne_and_not_mem_of_not_mem_cons hfront with ⟨hb, hlater⟩
    rw [List.cons_append, inputLines_cons, ih hlater, consByte, if_neg hb.symm]
    rfl

/-- Bytes without line feeds are one line. -/
theorem inputLines_of_last {line : List UInt8} (hne : line ≠ []) (hline : lineFeed ∉ line) :
    inputLines line = [line] := by
  induction line with
  | nil => exact absurd rfl hne
  | cons b line ih =>
    rcases List.ne_and_not_mem_of_not_mem_cons hline with ⟨hb, hlater⟩
    rw [inputLines_cons]
    cases line with
    | nil => rfl
    | cons b' line => rw [ih (List.cons_ne_nil _ _) hlater, consByte, if_neg hb.symm]

/-- The first line of an input is the one that its bytes begin with. -/
theorem firstLine_iff {bytes line rest : List UInt8} :
    FirstLine bytes line rest ↔ inputLines bytes = line :: inputLines rest := by
  constructor
  · intro h
    cases h with
    | ended hfront => exact inputLines_of_ended hfront rest
    | last hne hline => exact inputLines_of_last hne hline
  · intro h
    have hbytes : bytes = line ++ rest := by
      rw [← flatten_inputLines bytes, h, List.flatten_cons, flatten_inputLines]
    have hmem : line ∈ inputLines bytes := by
      rw [h]
      exact List.mem_cons_self
    rcases isInputLine_of_mem_inputLines line hmem with ⟨front, hfront, rfl | rfl⟩
    · -- only the last line can do without its line feed
      have hsplit : inputLines bytes = [line] ++ inputLines rest := h
      rcases (inputLines_flatten_of_append hsplit).2 with hlast | hends
      · have hrest : rest = [] := by rw [← flatten_inputLines rest, hlast, List.flatten_nil]
        rw [hrest, List.append_nil] at hbytes
        subst hrest hbytes
        refine .last ?_ hfront
        rintro rfl
        cases h
      · exact absurd (List.mem_of_getLast? (hends line List.mem_cons_self)) hfront
    · rw [hbytes, List.append_assoc, List.singleton_append]
      exact .ended hfront

/-- The lines that an input begins with are read off its bytes. -/
theorem readOff_iff {bytes rest : List UInt8} {lines : List (List UInt8)} :
    ReadOff bytes lines rest ↔ inputLines bytes = lines ++ inputLines rest := by
  constructor
  · intro h
    induction h with
    | nil => rfl
    | cons hfirst _ ih => rw [firstLine_iff.1 hfirst, ih, List.cons_append]
  · intro h
    induction lines generalizing bytes with
    | nil =>
      have hbytes : bytes = rest := by
        rw [← flatten_inputLines bytes, h, List.nil_append, flatten_inputLines]
      rw [hbytes]
      exact .nil
    | cons line lines ih =>
      have hsplit : inputLines bytes = [line] ++ (lines ++ inputLines rest) := h
      have hlater := (inputLines_flatten_of_append hsplit).1
      exact .cons (firstLine_iff.2 (by rw [hlater, hsplit, List.singleton_append])) (ih hlater)

/-- One line is read off bytes that begin with it. -/
theorem readOff_singleton_iff {bytes line rest : List UInt8} :
    ReadOff bytes [line] rest ↔ FirstLine bytes line rest :=
  readOff_iff.trans firstLine_iff.symm

/-- Lines that are read off some bytes are these bytes, but for those behind the lines. -/
theorem ReadOff.eq_append {bytes rest : List UInt8} {lines : List (List UInt8)}
    (h : ReadOff bytes lines rest) : bytes = lines.flatten ++ rest := by
  rw [← flatten_inputLines bytes, readOff_iff.1 h, List.flatten_append, flatten_inputLines]

/-! ## Lines of text -/

/-- A line that is the encoding of a text. -/
def IsText (line : List UInt8) : Prop :=
  ∃ text, encode text = line

/-- A line of text that a number is typed on.  What ends the line is blank. -/
def LineHolds (line : List UInt8) (n : Int16) : Prop :=
  ∃ text, encode text = line ∧ HoldsNumber text.toList n

/-- A line of text that no number is typed on. -/
def IsRefused (line : List UInt8) : Prop :=
  IsText line ∧ ∀ n, ¬ LineHolds line n

/-- A line of text without what ends it: a line feed, or a carriage return and a line feed.  A
carriage return is kept where no line feed follows. -/
inductive Stripped : List Char → List Char → Prop
  | carriageReturn {kept : List Char} : Stripped (kept ++ ['\r', '\n']) kept
  | lineFeed {kept : List Char} (h : kept.getLast? ≠ some '\r') : Stripped (kept ++ ['\n']) kept
  | open {line : List Char} (h : line.getLast? ≠ some '\n') : Stripped line line

/-- A text is decoded from its encoding, and from nothing else. -/
theorem decode?_eq_some_iff {line : List UInt8} {text : String} :
    decode? line = some text ↔ encode text = line :=
  ⟨encode_of_decode?, fun h => h ▸ decode?_encode text⟩

/-- Nothing is decoded from what is no text. -/
theorem decode?_eq_none_iff {line : List UInt8} : decode? line = none ↔ ¬ IsText line := by
  rw [IsText, Option.eq_none_iff_forall_ne_some, not_exists]
  exact forall_congr' fun text => not_congr decode?_eq_some_iff

/-- A line of text holds the number that is typed on it. -/
theorem lineHolds_iff {line : List UInt8} {text : String} (htext : encode text = line)
    {n : Int16} : LineHolds line n ↔ typedNumber? text = some n := by
  rw [typedNumber?_eq_some_iff]
  constructor
  · rintro ⟨text', htext', hholds⟩
    -- an encoding has only one text
    rw [← decode?_eq_some_iff] at htext htext'
    rw [htext] at htext'
    cases htext'
    exact hholds
  · exact fun hholds => ⟨text, htext, hholds⟩

/-- A line of text is refused if no number is typed on it. -/
theorem isRefused_iff {line : List UInt8} {text : String} (htext : encode text = line) :
    IsRefused line ↔ typedNumber? text = none := by
  rw [IsRefused, and_iff_right ⟨text, htext⟩, Option.eq_none_iff_forall_ne_some]
  exact forall_congr' fun n => not_congr (lineHolds_iff htext)

/-- What ends a line is dropped, and nothing else. -/
theorem stripLineEnd_eq_iff {text kept : String} :
    stripLineEnd text = kept ↔ Stripped text.toList kept.toList := by
  constructor
  · rintro rfl
    unfold stripLineEnd
    split
    · rename_i rest heq
      rw [String.toList_ofList, List.reverse_eq_iff.1 heq]
      have hstripped : Stripped (rest.reverse ++ ['\r', '\n']) rest.reverse := .carriageReturn
      simpa using hstripped
    · rename_i rest hreturn heq
      rw [String.toList_ofList, List.reverse_eq_iff.1 heq, List.reverse_cons]
      refine .lineFeed fun hlast => ?_
      rw [List.getLast?_reverse] at hlast
      rcases List.head?_eq_some_iff.1 hlast with ⟨rest', rfl⟩
      exact hreturn rest' rfl
    · rename_i hfeed
      refine .open fun hlast => ?_
      rw [← List.head?_reverse] at hlast
      rcases List.head?_eq_some_iff.1 hlast with ⟨rest, heq⟩
      exact hfeed rest heq
  · intro h
    apply String.toList_injective
    generalize hline : text.toList = line at h
    generalize hkept : kept.toList = cs at h
    have hback : text.toList.reverse = line.reverse := congrArg List.reverse hline
    cases h with
    | carriageReturn =>
      rw [List.reverse_append] at hback
      simp [stripLineEnd, hback]
    | lineFeed hlast =>
      rw [List.reverse_append] at hback
      unfold stripLineEnd
      rw [hback]
      split
      · rename_i rest heq
        have hrest : cs.reverse = '\r' :: rest := (List.cons.inj heq).2
        rw [← List.head?_reverse, hrest] at hlast
        exact absurd rfl hlast
      · rename_i rest _ heq
        have hrest : cs.reverse = rest := (List.cons.inj heq).2
        rw [String.toList_ofList, ← hrest, List.reverse_reverse]
      · rename_i hfeed
        exact absurd rfl (hfeed _)
    | «open» hlast =>
      unfold stripLineEnd
      rw [← List.head?_reverse, ← hback] at hlast
      split
      · rename_i rest heq
        rw [heq] at hlast
        exact absurd rfl hlast
      · rename_i rest _ heq
        rw [heq] at hlast
        exact absurd rfl hlast
      · exact hline

/-! ## Lines that a value takes -/

/-- The lines that a number takes and what they answer: refused lines, then a line that has a number
or is no text.  Without such a line there is no number, and all lines are taken. -/
inductive NumberLines : List (List UInt8) → Except ReadError Int16 → Prop
  | found {refused : List (List UInt8)} {line : List UInt8} {n : Int16}
      (hrefused : ∀ l ∈ refused, IsRefused l) (hline : LineHolds line n) :
    NumberLines (refused ++ [line]) (.ok n)
  | noText {refused : List (List UInt8)} {line : List UInt8}
      (hrefused : ∀ l ∈ refused, IsRefused l) (hline : ¬ IsText line) :
    NumberLines (refused ++ [line]) (.error .invalidText)
  | ended {refused : List (List UInt8)} (hrefused : ∀ l ∈ refused, IsRefused l) :
    NumberLines refused (.error .endOfInput)

/-- The lines that a text takes and what they answer: one line, whether it is text or not, or none
if there is none. -/
inductive TextLines : List (List UInt8) → Except ReadError String → Prop
  | found {line : List UInt8} {text kept : String} (hline : encode text = line)
      (hkept : Stripped text.toList kept.toList) : TextLines [line] (.ok kept)
  | noText {line : List UInt8} (hline : ¬ IsText line) : TextLines [line] (.error .invalidText)
  | ended : TextLines [] (.error .endOfInput)

/-- Reading answers what the lines answer that it takes, and leaves those behind them.  It takes all
lines if it comes to the end. -/
def AnswersBy {α : Type} (read : List (List UInt8) → Except ReadError α × List (List UInt8))
    (Lines : List (List UInt8) → Except ReadError α → Prop) : Prop :=
  ∀ {input rest answer}, read input = (answer, rest) ↔
    ∃ taken, input = taken ++ rest ∧ Lines taken answer ∧
      (answer = .error .endOfInput → rest = [])

/-- Refused lines are passed over. -/
theorem readNumber_append_of_refused {refused : List (List UInt8)}
    (h : ∀ line ∈ refused, IsRefused line) (later : List (List UInt8)) :
    readNumber (refused ++ later) = readNumber later := by
  induction refused with
  | nil => rfl
  | cons line refused ih =>
    rcases List.forall_mem_cons.1 h with ⟨hline, hlater⟩
    rcases hline.1 with ⟨text, htext⟩
    have hnone := (isRefused_iff htext).1 hline
    simp only [List.cons_append, readNumber, decode?_eq_some_iff.2 htext, hnone, ih hlater]

/-- A number is what its lines answer. -/
theorem readNumber_answersBy : AnswersBy readNumber NumberLines := by
  intro input rest answer
  constructor
  · intro h
    induction input with
    | nil =>
      cases h
      exact ⟨[], rfl, .ended (by simp), fun _ => rfl⟩
    | cons line later ih =>
      simp only [readNumber] at h
      split at h
      · rename_i hnone
        cases h
        have hlines : NumberLines ([] ++ [line]) (.error .invalidText) :=
          .noText (by simp) (decode?_eq_none_iff.1 hnone)
        exact ⟨[line], rfl, hlines, by simp⟩
      · rename_i text hdecode
        have htext := decode?_eq_some_iff.1 hdecode
        split at h
        · rename_i n hnumber
          cases h
          have hlines : NumberLines ([] ++ [line]) (.ok n) :=
            .found (by simp) ((lineHolds_iff htext).2 hnumber)
          exact ⟨[line], rfl, hlines, by simp⟩
        · rename_i hnumber
          have hline := (isRefused_iff htext).2 hnumber
          rcases ih h with ⟨taken, rfl, hlines, hend⟩
          refine ⟨line :: taken, rfl, ?_, hend⟩
          cases hlines with
          | found hrefused hholds =>
            exact .found (List.forall_mem_cons.2 ⟨hline, hrefused⟩) hholds
          | noText hrefused hnot => exact .noText (List.forall_mem_cons.2 ⟨hline, hrefused⟩) hnot
          | ended hrefused => exact .ended (List.forall_mem_cons.2 ⟨hline, hrefused⟩)
  · rintro ⟨taken, rfl, hlines, hend⟩
    cases hlines with
    | found hrefused hholds =>
      have htext := hholds
      rcases htext with ⟨text, htext, -⟩
      have hnumber := (lineHolds_iff htext).1 hholds
      simp only [List.append_assoc, readNumber_append_of_refused hrefused, List.singleton_append,
        readNumber, decode?_eq_some_iff.2 htext, hnumber]
    | noText hrefused hnot =>
      simp only [List.append_assoc, readNumber_append_of_refused hrefused, List.singleton_append,
        readNumber, decode?_eq_none_iff.2 hnot]
    | ended hrefused =>
      rw [hend rfl, readNumber_append_of_refused hrefused]
      rfl

/-- A text is what its line answers. -/
theorem readText_answersBy : AnswersBy readText TextLines := by
  intro input rest answer
  constructor
  · intro h
    cases input with
    | nil =>
      cases h
      exact ⟨[], rfl, .ended, fun _ => rfl⟩
    | cons line later =>
      simp only [readText] at h
      split at h
      · rename_i text hdecode
        cases h
        exact ⟨[line], rfl, .found (decode?_eq_some_iff.1 hdecode) (stripLineEnd_eq_iff.1 rfl),
          by simp⟩
      · rename_i hnone
        cases h
        exact ⟨[line], rfl, .noText (decode?_eq_none_iff.1 hnone), by simp⟩
  · rintro ⟨taken, rfl, hlines, hend⟩
    cases hlines with
    | found hline hkept =>
      rw [List.singleton_append, readText, decode?_eq_some_iff.2 hline,
        ← stripLineEnd_eq_iff.2 hkept]
    | noText hline =>
      rw [List.singleton_append, readText, decode?_eq_none_iff.2 hline]
    | ended =>
      rw [hend rfl]
      rfl

/-! ## Bytes that a value takes -/

/-- A state on a line of the program, with bytes that are not read yet. -/
def State.awaiting (s : State) (number : Int16) (bytes : List UInt8) : State :=
  { s with line := some number, input := inputLines bytes }

section receive

variable {α : Type} {read : List (List UInt8) → Except ReadError α × List (List UInt8)}
  {Lines : List (List UInt8) → Except ReadError α → Prop}
  {s t : State} {number : Int16} {bytes : List UInt8}

/-- Lines that are taken from an input are read off its bytes. -/
theorem AnswersBy.read_inputLines_iff (h : AnswersBy read Lines)
    {answer : Except ReadError α} {later : List (List UInt8)} :
    read (inputLines bytes) = (answer, later) ↔
      ∃ taken rest, ReadOff bytes taken rest ∧ Lines taken answer ∧
        (answer = .error .endOfInput → rest = []) ∧ later = inputLines rest := by
  rw [h]
  constructor
  · rintro ⟨taken, hinput, hlines, hend⟩
    have hlater := (inputLines_flatten_of_append hinput).1
    refine ⟨taken, later.flatten, readOff_iff.2 (by rw [hlater, hinput]), hlines, ?_, hlater.symm⟩
    intro herror
    rw [hend herror, List.flatten_nil]
  · rintro ⟨taken, rest, hoff, hlines, hend, rfl⟩
    refine ⟨taken, readOff_iff.1 hoff, hlines, fun herror => ?_⟩
    rw [hend herror]
    rfl

/-- A value is received with the bytes behind what it takes left. -/
theorem AnswersBy.run_receive_eq_ok_iff (h : AnswersBy read Lines) {v : α} :
    (receive read).run (s.awaiting number bytes) = .ok v t ↔
      ∃ taken rest, ReadOff bytes taken rest ∧ Lines taken (.ok v) ∧
        t = s.awaiting number rest := by
  have hinput : (s.awaiting number bytes).input = inputLines bytes := rfl
  rw [run_receive, hinput]
  constructor
  · intro hrun
    rcases hanswer : read (inputLines bytes) with ⟨e | w, later⟩
    · rw [hanswer] at hrun
      cases hrun
    · rw [hanswer] at hrun
      cases hrun
      rcases h.read_inputLines_iff.1 hanswer with ⟨taken, rest, hoff, hlines, -, rfl⟩
      exact ⟨taken, rest, hoff, hlines, rfl⟩
  · rintro ⟨taken, rest, hoff, hlines, rfl⟩
    rw [h.read_inputLines_iff.2 ⟨taken, rest, hoff, hlines, by simp, rfl⟩]
    rfl

/-- What gives no value is taken nevertheless. -/
theorem AnswersBy.run_receive_eq_error_iff (h : AnswersBy read Lines) {e : RuntimeError} :
    (receive read).run (s.awaiting number bytes) = .error e t ↔
      (∃ taken rest, ReadOff bytes taken rest ∧ Lines taken (.error .invalidText) ∧
        e = .stream .invalidText ∧ t = s.awaiting number rest) ∨
      (∃ taken, ReadOff bytes taken [] ∧ Lines taken (.error .endOfInput) ∧
        e = .onLine number .endOfInput ∧ t = s.awaiting number []) := by
  have hinput : (s.awaiting number bytes).input = inputLines bytes := rfl
  rw [run_receive, hinput]
  constructor
  · intro hrun
    rcases hanswer : read (inputLines bytes) with ⟨cause | w, later⟩
    · rw [hanswer] at hrun
      cases hrun
      rcases h.read_inputLines_iff.1 hanswer with ⟨taken, rest, hoff, hlines, hend, rfl⟩
      cases cause with
      | invalidText => exact .inl ⟨taken, rest, hoff, hlines, rfl, rfl⟩
      | endOfInput =>
        obtain rfl := hend rfl
        exact .inr ⟨taken, hoff, hlines, rfl, rfl⟩
    · rw [hanswer] at hrun
      cases hrun
  · rintro (⟨taken, rest, hoff, hlines, rfl, rfl⟩ | ⟨taken, hoff, hlines, rfl, rfl⟩)
    · rw [h.read_inputLines_iff.2 ⟨taken, rest, hoff, hlines, by simp, rfl⟩]
      rfl
    · rw [h.read_inputLines_iff.2 ⟨taken, [], hoff, hlines, fun _ => rfl, rfl⟩]
      rfl

end receive

/-- A number is that of the first line that one is typed on, if all lines before are text, and it
takes the bytes through that line.  If a line that is no text comes before, the stream fails behind
it, and if there is no such line either, all bytes are taken and the line that is executed fails.  A
text is the next line without what ends it. -/
theorem line_input (s : State) (number : Int16) (bytes : List UInt8) :
    (∀ n t, (receive readNumber).run (s.awaiting number bytes) = .ok n t ↔
      ∃ refused line rest, ReadOff bytes (refused ++ [line]) rest ∧
        (∀ l ∈ refused, IsRefused l) ∧ LineHolds line n ∧ t = s.awaiting number rest) ∧
    (∀ e t, (receive readNumber).run (s.awaiting number bytes) = .error e t ↔
      (∃ refused line rest, ReadOff bytes (refused ++ [line]) rest ∧
        (∀ l ∈ refused, IsRefused l) ∧ ¬ IsText line ∧ e = .stream .invalidText ∧
        t = s.awaiting number rest) ∨
      (∃ refused, ReadOff bytes refused [] ∧ (∀ l ∈ refused, IsRefused l) ∧
        e = .onLine number .endOfInput ∧ t = s.awaiting number [])) ∧
    (∀ kept t, (receive readText).run (s.awaiting number bytes) = .ok kept t ↔
      ∃ text rest, FirstLine bytes (encode text) rest ∧ Stripped text.toList kept.toList ∧
        t = s.awaiting number rest) := by
  refine ⟨fun n t => ?_, fun e t => ?_, fun kept t => ?_⟩
  · rw [readNumber_answersBy.run_receive_eq_ok_iff]
    constructor
    · rintro ⟨taken, rest, hoff, hlines, ht⟩
      cases hlines with
      | found hrefused hholds => exact ⟨_, _, rest, hoff, hrefused, hholds, ht⟩
    · rintro ⟨refused, line, rest, hoff, hrefused, hholds, ht⟩
      exact ⟨_, rest, hoff, .found hrefused hholds, ht⟩
  · rw [readNumber_answersBy.run_receive_eq_error_iff]
    refine or_congr ⟨?_, ?_⟩ ⟨?_, ?_⟩
    · rintro ⟨taken, rest, hoff, hlines, he, ht⟩
      cases hlines with
      | noText hrefused hnot => exact ⟨_, _, rest, hoff, hrefused, hnot, he, ht⟩
    · rintro ⟨refused, line, rest, hoff, hrefused, hnot, he, ht⟩
      exact ⟨_, rest, hoff, .noText hrefused hnot, he, ht⟩
    · rintro ⟨taken, hoff, hlines, he, ht⟩
      cases hlines with
      | ended hrefused => exact ⟨taken, hoff, hrefused, he, ht⟩
    · rintro ⟨refused, hoff, hrefused, he, ht⟩
      exact ⟨refused, hoff, .ended hrefused, he, ht⟩
  · rw [readText_answersBy.run_receive_eq_ok_iff]
    constructor
    · rintro ⟨taken, rest, hoff, hlines, ht⟩
      cases hlines with
      | found hline hkept =>
        subst hline
        exact ⟨_, rest, readOff_singleton_iff.1 hoff, hkept, ht⟩
    · rintro ⟨text, rest, hfirst, hkept, ht⟩
      exact ⟨_, rest, readOff_singleton_iff.2 hfirst, .found rfl hkept, ht⟩

end LineBasic.Machine
