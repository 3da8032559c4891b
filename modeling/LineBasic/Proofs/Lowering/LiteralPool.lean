import LineBasic.Lowering.LiteralPool
import LineBasic.Proofs.Assembly.Reading
import LineBasic.Proofs.FirstOccurrences
import LineBasic.Proofs.Text.Decimal

/-!
# The numbers of texts

A pool gives each text a number when it first occurs, and the same number whenever it occurs again.
The numbers go up from zero, and the text with a number is stored in the line with this number,
where it can be read back.  A pool that finds its texts through an index gives the same numbers.

Main definitions:

- `LiteralPool.absorb`: the pool that has texts as well.
- `LiteralPool.labels`: the labels of texts that are used one after the other.
- `textLine` and `readTextLine?`: the line that stores a text under a name, and what is read there.
- `StoredPool`: a pool with an index.

Main results:

- `firstOccurrences_absorb`: a pool has each text once, in the order of first uses.
- `getElem?_internAll`: what each use of a text gives.
- `StoredPool.Stores.internAll`: a pool with an index gives the same numbers.
- `firstOccurrences_labels`: the labels count up from zero.
- `textLines_render_listing` and `readTextLine?_textLine`: the lines of a pool, and reading them.
- `numbers_texts`: labels, sizes and lines after any uses of texts.
-/

namespace LineBasic

open Assembly

/-! ## One use of a text -/

/-- The index of a text is its place in the pool; a text that is new gets the place behind the
others. -/
theorem LiteralPool.intern_eq (pool : LiteralPool) (text : String) :
    pool.intern text =
      (pool.texts.idxOf text,
        ⟨if text ∈ pool.texts then pool.texts else pool.texts ++ [text]⟩) := by
  have hplace := List.idxOf_eq_getD_idxOf? text pool.texts
  unfold LiteralPool.intern
  split
  · rename_i i hi
    have hmem : text ∈ pool.texts := by
      by_contra hnew
      rw [List.idxOf?_eq_none_iff.2 hnew] at hi
      cases hi
    rw [hplace, hi, if_pos hmem]
    rfl
  · rename_i hnone
    rw [hplace, hnone, if_neg (List.idxOf?_eq_none_iff.1 hnone)]
    rfl

/-- A text in a pool is where its index says, and the texts before stay. -/
theorem LiteralPool.intern_spec (pool : LiteralPool) (text : String) :
    (pool.intern text).2.texts[(pool.intern text).1]? = some text ∧
      ∃ more, (pool.intern text).2.texts = pool.texts ++ more := by
  rw [pool.intern_eq]
  by_cases hmem : text ∈ pool.texts
  · rw [if_pos hmem]
    exact ⟨List.getElem?_idxOf hmem, [], (List.append_nil _).symm⟩
  · rw [if_neg hmem, List.idxOf_eq_length hmem]
    exact ⟨List.getElem?_concat_length, [text], rfl⟩

/-! ## Uses one after the other -/

/-- The pool that has texts as well. -/
def LiteralPool.absorb (pool : LiteralPool) (texts : List String) : LiteralPool :=
  texts.foldl (fun pool content => (pool.intern content).2) pool

theorem absorb_append (pool : LiteralPool) (xs ys : List String) :
    pool.absorb (xs ++ ys) = (pool.absorb xs).absorb ys :=
  List.foldl_append

/-- Texts in a pool stay where they are. -/
theorem exists_texts_absorb_eq (pool : LiteralPool) (texts : List String) :
    ∃ more, (pool.absorb texts).texts = pool.texts ++ more := by
  induction texts generalizing pool with
  | nil => exact ⟨[], (List.append_nil _).symm⟩
  | cons first rest ih =>
    obtain ⟨behind, hbehind⟩ := (pool.intern_spec first).2
    obtain ⟨more, hmore⟩ := ih (pool.intern first).2
    exact ⟨behind ++ more, by rw [← List.append_assoc, ← hbehind, ← hmore]; rfl⟩

/-- The index of a text leads to it in all later pools. -/
theorem getElem?_absorb_intern (pool : LiteralPool) (text : String) (texts : List String) :
    ((pool.intern text).2.absorb texts).texts[(pool.intern text).1]? = some text := by
  obtain ⟨more, hmore⟩ := exists_texts_absorb_eq (pool.intern text).2 texts
  have hthere := (pool.intern_spec text).1
  rw [hmore, List.getElem?_append_left (List.getElem?_eq_some_iff.1 hthere).1, hthere]

/-- A pool has each text once, in the order of their first uses. -/
theorem firstOccurrences_absorb (texts : List String) :
    FirstOccurrences (({} : LiteralPool).absorb texts).texts texts := by
  induction texts using List.reverseRecOn with
  | nil => exact .nil
  | append_singleton texts text ih =>
    have hlast : ({} : LiteralPool).absorb (texts ++ [text]) =
        ((({} : LiteralPool).absorb texts).intern text).2 :=
      absorb_append _ texts [text]
    rw [hlast, LiteralPool.intern_eq]
    exact ih.concat text

/-- What each use of a text gives: its index in the pool of the uses before. -/
theorem getElem?_internAll (pool : LiteralPool) (texts : List String) (k : Nat) :
    (pool.internAll texts)[k]? =
      texts[k]?.map fun text => (pool.absorb (texts.take k)).intern text := by
  induction texts generalizing pool k with
  | nil => rfl
  | cons first rest ih =>
    cases k with
    | zero => rfl
    | succ k =>
      rw [LiteralPool.internAll, List.getElem?_cons_succ, ih]
      rfl

/-- The uses of texts, seen from one of them. -/
theorem exists_absorb_eq {texts : List String} {text : String} {k : Nat}
    (h : texts[k]? = some text) (pool : LiteralPool) :
    ∃ more, pool.absorb texts = ((pool.absorb (texts.take k)).intern text).2.absorb more := by
  obtain ⟨hk, rfl⟩ := List.getElem?_eq_some_iff.1 h
  refine ⟨texts.drop (k + 1), ?_⟩
  conv_lhs => rw [← List.take_append_drop k texts, List.drop_eq_getElem_cons hk, absorb_append]
  rfl

/-- A use of a text leaves the pool of the uses so far. -/
theorem intern_absorb_take {texts : List String} {text : String} {k : Nat}
    (h : texts[k]? = some text) (pool : LiteralPool) :
    ((pool.absorb (texts.take k)).intern text).2 = pool.absorb (texts.take (k + 1)) := by
  rw [List.take_add_one, h, absorb_append]
  rfl

/-- The index that a use of a text gives leads to it in the pool of these and later uses. -/
theorem getElem?_absorb_take {texts : List String} {text : String} {j k : Nat} (hle : j ≤ k)
    (h : texts[j]? = some text) (pool : LiteralPool) :
    (pool.absorb (texts.take (k + 1))).texts[((pool.absorb (texts.take j)).intern text).1]? =
      some text := by
  have hthere : (texts.take (k + 1))[j]? = some text := by
    rw [List.getElem?_take_of_lt (Nat.lt_succ_of_le hle), h]
  obtain ⟨more, hmore⟩ := exists_absorb_eq hthere pool
  rw [List.take_take, Nat.min_eq_left (Nat.le_succ_of_le hle)] at hmore
  rw [hmore]
  exact getElem?_absorb_intern _ text more

/-- A pool has as many texts as are different among those that are used. -/
theorem size_absorb (texts : List String) :
    (({} : LiteralPool).absorb texts).size = texts.toFinset.card :=
  (firstOccurrences_absorb texts).length_eq

/-! ## An index -/

/-- Texts in the order of their first use, with an index that leads from each text to its place. -/
structure StoredPool where
  literals : Array String := #[]
  index : Std.HashMap String Nat := ∅

namespace StoredPool

/-- The index of a text in the pool, and the pool that has it. -/
def intern (t : StoredPool) (text : String) : Nat × StoredPool :=
  match t.index[text]? with
  | some n => (n, t)
  | none => (t.literals.size, ⟨t.literals.push text, t.index.insert text t.literals.size⟩)

/-- The indices of texts interned one after the other, and the pool behind each of them. -/
def internAll (t : StoredPool) : List String → List (Nat × StoredPool)
  | [] => []
  | text :: rest => t.intern text :: internAll (t.intern text).2 rest

/-- A pool with an index has the texts of a pool, and its index leads to them. -/
structure Stores (t : StoredPool) (pool : LiteralPool) : Prop where
  literals_eq : t.literals.toList = pool.texts
  indexesPlaces : IndexesPlaces t.index pool.texts

/-- A use of a text gives the same number in both, and keeps the texts the same. -/
theorem Stores.intern {t : StoredPool} {pool : LiteralPool} (h : t.Stores pool) (text : String) :
    (t.intern text).1 = (pool.intern text).1 ∧ (t.intern text).2.Stores (pool.intern text).2 := by
  rw [StoredPool.intern, pool.intern_eq]
  by_cases hmem : text ∈ pool.texts
  · rw [(h.indexesPlaces text _).2 (List.getElem?_idxOf hmem), if_pos hmem]
    exact ⟨rfl, h⟩
  · have hsize : t.literals.size = pool.texts.length := by
      rw [← h.literals_eq, Array.length_toList]
    rw [h.indexesPlaces.eq_none hmem, if_neg hmem, List.idxOf_eq_length hmem, hsize]
    refine ⟨rfl, ?_, h.indexesPlaces.concat hmem⟩
    rw [Array.toList_push, h.literals_eq]

/-- Uses of texts one after the other give the same numbers in both, and the same texts behind
each of them. -/
theorem Stores.internAll {t : StoredPool} {pool : LiteralPool} (h : t.Stores pool)
    (texts : List String) :
    (t.internAll texts).map (fun a => (a.1, a.2.literals.toList)) =
      (pool.internAll texts).map fun a => (a.1, a.2.texts) := by
  induction texts generalizing t pool with
  | nil => rfl
  | cons text rest ih =>
    obtain ⟨hnumber, hstores⟩ := h.intern text
    rw [StoredPool.internAll, LiteralPool.internAll, List.map_cons, List.map_cons, ih hstores,
      hnumber, hstores.literals_eq]

end StoredPool

/-! ## Lines -/

/-- The storage of texts. -/
theorem storageFrom_eq (i : Nat) (texts : List String) :
    LiteralPool.storageFrom i texts =
      (texts.zipIdx i).map fun p => .storage (.literal p.2) (.text p.1) := by
  induction texts generalizing i with
  | nil => rfl
  | cons text rest ih => rw [LiteralPool.storageFrom, ih, List.zipIdx_cons, List.map_cons]

/-- The line that stores a text under a name: its characters and a zero behind them. -/
def textLine (name : List Char) (content : String) : List Char :=
  name ++ (": DB \"" ++ content ++ "\",00h").toList

/-- The line of a text. -/
theorem render_text (k : Nat) (content : String) :
    (Item.storage (.literal k) (.text content)).render.toList =
      textLine (Label.literal k).render.toList content := by
  simp [Item.render, Storage.render, textLine]

/-- The name and the text of a line that stores a text: the name stands in front of the first colon,
the text between the first two quotes. -/
def readTextLine? (line : List Char) : Option (List Char × String) :=
  let name := line.takeWhile (· != ':')
  let content := String.ofList ((line.dropWhile (· != '"')).tail.takeWhile (· != '"'))
  if line = textLine name content then some (name, content) else none

/-- Lines of texts are read back, if no text has a quote in it. -/
theorem readTextLine?_textLine {name : List Char} {content : String}
    (hname : ∀ c ∈ name, c ≠ ':' ∧ c ≠ '"') (hcontent : '"' ∉ content.toList) :
    readTextLine? (textLine name content) = some (name, content) := by
  have hcolon : (textLine name content).takeWhile (· != ':') = name := by
    rw [textLine, List.takeWhile_append_of_pos fun c hc => by simpa using (hname c hc).1]
    simp
  have hquote : ((textLine name content).dropWhile (· != '"')).tail =
      content.toList ++ ['"', ',', '0', '0', 'h'] := by
    rw [textLine, List.dropWhile_append_of_pos fun c hc => by simpa using (hname c hc).2]
    simp
  have htext : (content.toList ++ ['"', ',', '0', '0', 'h']).takeWhile (· != '"') =
      content.toList := by
    rw [List.takeWhile_append_of_pos fun c hc => by
      simpa using fun heq : c = '"' => hcontent (heq ▸ hc)]
    simp
  rw [readTextLine?, hcolon, hquote, htext, String.ofList_toList, if_pos rfl]

/-- No line feed is in the line of a text without one. -/
theorem lineFeed_not_mem_textLine {name : List Char} {content : String}
    (hname : '\n' ∉ name) (hcontent : '\n' ∉ content.toList) : '\n' ∉ textLine name content := by
  simp [textLine, hname, hcontent]

/-! ## Labels -/

/-- The labels of texts that are used one after the other. -/
def LiteralPool.labels (texts : List String) : List String :=
  (({} : LiteralPool).internAll texts).map fun a => (Label.literal a.1).render

/-- The label of a text has its place among the first occurrences. -/
theorem labels_eq (texts : List String) :
    LiteralPool.labels texts = texts.map fun text =>
      "Pool_" ++ toString ((({} : LiteralPool).absorb texts).texts.idxOf text) := by
  refine List.ext_getElem? fun k => ?_
  rw [LiteralPool.labels, List.getElem?_map, getElem?_internAll, List.getElem?_map, Option.map_map]
  cases htext : texts[k]? with
  | none => rfl
  | some text =>
    obtain ⟨more, hmore⟩ := exists_absorb_eq htext {}
    have hplace := getElem?_absorb_intern (({} : LiteralPool).absorb (texts.take k)) text more
    rw [← hmore] at hplace
    obtain ⟨hlt, hget⟩ := List.getElem?_eq_some_iff.1 hplace
    have hindex := (firstOccurrences_absorb texts).nodup.idxOf_getElem _ hlt
    rw [hget] at hindex
    rw [Option.map_some, Option.map_some, hindex]
    rfl

/-- Labels with the same number are the same, and no others. -/
theorem pool_append_toString_inj {m n : Nat} :
    "Pool_" ++ toString m = "Pool_" ++ toString n ↔ m = n :=
  ⟨fun h => eq_of_toString_eq ((String.append_right_inj "Pool_").1 h), fun h => h ▸ rfl⟩

/-- Texts that are used have different labels exactly if they are different. -/
theorem label_eq_iff {texts : List String} {s t : String} (hs : s ∈ texts) :
    "Pool_" ++ toString ((({} : LiteralPool).absorb texts).texts.idxOf s) =
        "Pool_" ++ toString ((({} : LiteralPool).absorb texts).texts.idxOf t) ↔
      s = t := by
  rw [pool_append_toString_inj]
  exact List.idxOf_inj (((firstOccurrences_absorb texts).mem_iff s).2 hs)

/-- The labels count up from zero, in the order in which they are first given. -/
theorem firstOccurrences_labels (texts : List String) :
    FirstOccurrences ((List.range texts.toFinset.card).map fun n => "Pool_" ++ toString n)
      (LiteralPool.labels texts) := by
  have hfirst := firstOccurrences_absorb texts
  have hplaces : (List.range texts.toFinset.card).map (fun n => "Pool_" ++ toString n) =
      (({} : LiteralPool).absorb texts).texts.map fun text =>
        "Pool_" ++ toString ((({} : LiteralPool).absorb texts).texts.idxOf text) := by
    refine List.ext_getElem (by simp [hfirst.length_eq]) fun n hn hn' => ?_
    rw [List.length_map] at hn'
    simp [hfirst.nodup.idxOf_getElem n hn']
  rw [hplaces, labels_eq]
  exact hfirst.map fun s hs t _ => (label_eq_iff hs).1

/-- No character of a label ends it. -/
theorem ne_of_mem_label {n : Nat} {c : Char} (h : c ∈ ("Pool_" ++ toString n).toList) :
    c ≠ ':' ∧ c ≠ '"' ∧ c ≠ '\n' := by
  have hpool : ∀ c ∈ "Pool_".toList, c ≠ ':' ∧ c ≠ '"' ∧ c ≠ '\n' := by simp
  rw [String.toList_append] at h
  rcases List.mem_append.1 h with hword | hdigits
  · exact hpool c hword
  · have hdigit := isDigit_of_mem_toString hdigits
    refine ⟨?_, ?_, ?_⟩ <;> rintro rfl <;> cases hdigit

/-- The text of a pool is the lines of its texts. -/
theorem textLines_render_listing {pool : LiteralPool} (h : ∀ t ∈ pool.texts, '\n' ∉ t.toList) :
    textLines (render pool.listing) =
      (pool.texts.zipIdx.map fun p => textLine ("Pool_" ++ toString p.2).toList p.1) ++ [[]] := by
  rw [LiteralPool.listing, storageFrom_eq, textLines_render, List.map_map]
  · congr 2
    funext p
    exact render_text p.2 p.1
  · refine List.forall_mem_map.2 fun p hp => ?_
    rw [render_text]
    exact lineFeed_not_mem_textLine (fun hmem => (ne_of_mem_label hmem).2.2 rfl)
      (h p.1 (List.fst_mem_of_mem_zipIdx hp))

/-- Texts get numbers when they first occur, one after the other from zero.  Two uses have the same
label exactly if their texts are the same; behind each use the pool has as many texts as are
different so far; a label stands for its text in all later pools; and the lines of the pool store
the text of each number under its label, where the text can be read back if it has no quotes and
line feeds in it.  With an index beside the texts, all numbers and texts are the same. -/
theorem numbers_texts (texts : List String) :
    let uses := ({} : LiteralPool).internAll texts
    let labels := LiteralPool.labels texts
    let pool := ({} : LiteralPool).absorb texts
    (∀ (i j : Nat) (s t : String), texts[i]? = some s → texts[j]? = some t →
      (labels[i]? = labels[j]? ↔ s = t)) ∧
    FirstOccurrences pool.texts texts ∧
    labels = texts.map (fun t => "Pool_" ++ toString (pool.texts.idxOf t)) ∧
    FirstOccurrences ((List.range texts.toFinset.card).map fun n => "Pool_" ++ toString n) labels ∧
    (∀ k < texts.length, ∃ a, uses[k]? = some a ∧
      a.2 = ({} : LiteralPool).absorb (texts.take (k + 1)) ∧
      a.2.size = (texts.take (k + 1)).toFinset.card) ∧
    (∀ (j k : Nat) (a b : Nat × LiteralPool), j ≤ k → uses[j]? = some a → uses[k]? = some b →
      b.2.texts[a.1]? = texts[j]?) ∧
    ((∀ t ∈ texts, '"' ∉ t.toList ∧ '\n' ∉ t.toList) → ∃ lines,
      textLines (render pool.listing) = lines ++ [[]] ∧ ∀ n : Nat,
        lines[n]? = pool.texts[n]?.map (fun t => textLine ("Pool_" ++ toString n).toList t) ∧
        lines[n]?.bind readTextLine? =
          pool.texts[n]?.map fun t => (("Pool_" ++ toString n).toList, t)) ∧
    (({} : StoredPool).internAll texts).map (fun a => (a.1, a.2.literals.toList)) =
      uses.map fun a => (a.1, a.2.texts) := by
  intro uses labels pool
  have hfirst : FirstOccurrences pool.texts texts := firstOccurrences_absorb texts
  have hlabels : labels = texts.map fun t => "Pool_" ++ toString (pool.texts.idxOf t) :=
    labels_eq texts
  have huse (k : Nat) : uses[k]? = texts[k]?.map fun t =>
      (({} : LiteralPool).absorb (texts.take k)).intern t :=
    getElem?_internAll {} texts k
  refine ⟨fun i j s t hs ht => ?_, hfirst, hlabels, firstOccurrences_labels texts,
    fun k hk => ?_, fun j k a b hle ha hb => ?_, fun hplain => ?_, ?_⟩
  · rw [hlabels, List.getElem?_map, List.getElem?_map, hs, ht, Option.map_some, Option.map_some,
      Option.some_inj]
    exact label_eq_iff (List.mem_of_getElem? hs)
  · have ht : texts[k]? = some texts[k] := List.getElem?_eq_getElem hk
    have hpool := intern_absorb_take ht {}
    exact ⟨_, by rw [huse, ht]; rfl, hpool, by rw [hpool, size_absorb]⟩
  · rw [huse, Option.map_eq_some_iff] at ha hb
    obtain ⟨t, ht, rfl⟩ := ha
    obtain ⟨u, hu, rfl⟩ := hb
    rw [intern_absorb_take hu, ht]
    exact getElem?_absorb_take hle ht {}
  · have hpool : ∀ t ∈ pool.texts, '"' ∉ t.toList ∧ '\n' ∉ t.toList :=
      fun t ht => hplain t ((hfirst.mem_iff t).1 ht)
    refine ⟨_, textLines_render_listing fun t ht => (hpool t ht).2, fun n => ?_⟩
    rw [List.getElem?_map, List.getElem?_zipIdx, Option.map_map, Nat.zero_add]
    refine ⟨rfl, ?_⟩
    cases ht : pool.texts[n]? with
    | none => rfl
    | some t =>
      exact readTextLine?_textLine
        (fun c hc => ⟨(ne_of_mem_label hc).1, (ne_of_mem_label hc).2.1⟩)
        (hpool t (List.mem_of_getElem? ht)).1
  · exact StoredPool.Stores.internAll ⟨rfl, .nil⟩ texts

/-- Two texts in three uses, one of them empty: the labels, and the lines with the texts that are
read back. -/
theorem numbers_of_repeated_texts :
    let texts := ["b", "", "b"]
    LiteralPool.labels texts = ["Pool_0", "Pool_1", "Pool_0"] ∧
      ∃ lines, textLines (render (({} : LiteralPool).absorb texts).listing) = lines ++ [[]] ∧
        lines[1]? = some "Pool_1: DB \"\",00h".toList ∧
        lines[0]?.bind readTextLine? = some ("Pool_0".toList, "b") := by
  obtain ⟨-, -, hlabels, -, -, -, hlines, -⟩ := numbers_texts ["b", "", "b"]
  have htexts : (({} : LiteralPool).absorb ["b", "", "b"]).texts = ["b", ""] := by decide
  rw [htexts] at hlabels hlines
  obtain ⟨lines, htext, hread⟩ := hlines (by decide)
  exact ⟨hlabels.trans (by decide), lines, htext, (hread 1).1, (hread 0).2⟩

end LineBasic
