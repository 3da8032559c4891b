import LineBasic.Command.FileTree
import LineBasic.Proofs.Sequencing
import Mathlib.Data.List.Infix

/-!
# What writing a file changes

A content is written to the place where a path leads, and nothing else changes: every other place
holds what it held before, and every path leads where it led before.  This relies on where paths can
lead: all directories around such a place exist already, so no new file makes a directory.

Main definitions:

- `FileTree.Enclosed`: places with directories around them.
- `FileTree.Leads`: a path leads to a place that can be written.
- `FileTree.Replaces`: a tree with a new content at one place.

Main results:

- `FileTree.enclosed_of_locate`: paths lead to places with directories around them.
- `FileTree.write_eq_ok_iff`: when writing succeeds, and what it gives.
- `FileTree.Leads.replaces`: writing replaces the content of one place.
- `FileTree.Replaces.locate_eq_ok_iff`: paths lead where they led before.
- `FileTree.Replaces.read_eq_ok_iff`: what can be read afterwards.
-/

namespace LineBasic.Command.FileTree

variable {tree : FileTree}

/-! ## Directories -/

/-- Directories are the working directory, those that are listed, and those around these and around
files. -/
theorem isDirectory_iff {p : Path} :
    tree.isDirectory p = true ↔
      p <+: tree.workingDirectory ∨ (∃ d ∈ tree.directories, p <+: d) ∨
        ∃ f ∈ tree.files, p <+: f.1 ∧ p ≠ f.1 := by
  simp only [isDirectory, Bool.or_eq_true, List.any_eq_true, Bool.and_eq_true,
    List.isPrefixOf_iff_prefix, bne_iff_ne, or_assoc]

/-- Around a directory are directories. -/
theorem isDirectory_of_inside {p q : Path} (h : p <+: q) (hq : tree.isDirectory q = true) :
    tree.isDirectory p = true := by
  rw [isDirectory_iff] at hq ⊢
  rcases hq with hworking | ⟨d, hd, hlisted⟩ | ⟨f, hf, haround, hne⟩
  · exact .inl (h.trans hworking)
  · exact .inr (.inl ⟨d, hd, h.trans hlisted⟩)
  · refine .inr (.inr ⟨f, hf, h.trans haround, ?_⟩)
    rintro rfl
    exact hne (haround.eq_of_length_le h.length_le)

/-- What is a directory to look names up in is one. -/
theorem isDirectory_of_entry {p : Path} (h : tree.entry p = .directory) :
    tree.isDirectory p = true := by
  unfold entry at h
  split at h
  · cases h
  · by_contra hnot
    rw [if_neg hnot] at h
    cases h

/-- All directories around a place exist. -/
def Enclosed (tree : FileTree) (place : Path) : Prop :=
  ∀ p, p <+: place → p ≠ place → tree.isDirectory p = true

/-- Around a directory all directories exist. -/
theorem enclosed_of_isDirectory {p : Path} (h : tree.isDirectory p = true) : tree.Enclosed p :=
  fun _ haround _ => isDirectory_of_inside haround h

/-- Names are looked up in directories. -/
theorem entry_of_follow_cons {here place : Path} {name : String} {rest : List String}
    (h : tree.follow here (name :: rest) = .ok place) : tree.entry here = .directory := by
  rw [follow] at h
  split at h
  · cases h
  · cases h
  · assumption

/-- Names lead from places with directories around them to others. -/
theorem enclosed_of_follow {here place : Path} {names : List String} (hhere : tree.Enclosed here)
    (h : tree.follow here names = .ok place) : tree.Enclosed place := by
  induction names generalizing here with
  | nil =>
    cases h
    exact hhere
  | cons name rest ih =>
    have hentry := entry_of_follow_cons h
    have hdirectory := isDirectory_of_entry hentry
    rw [follow, hentry] at h
    dsimp only at h
    split at h
    · exact ih hhere h
    · split at h
      · have hup := isDirectory_of_inside here.dropLast_prefix hdirectory
        exact ih (enclosed_of_isDirectory hup) h
      · split at h
        · cases h
        · refine ih (fun p hp hne => ?_) h
          rcases List.prefix_concat_iff.1 hp with heq | hinside
          · exact absurd heq hne
          · exact isDirectory_of_inside hinside hdirectory

/-- Paths lead to places with directories around them. -/
theorem enclosed_of_locate {path : String} {place : Path} (h : tree.locate path = .ok place) :
    tree.Enclosed place := by
  rw [locate, walk] at h
  split at h
  · cases h
  · refine enclosed_of_follow (enclosed_of_isDirectory ?_) h
    split <;> simp [isDirectory]

/-! ## New contents -/

/-- The new content is at its place, and others stay. -/
theorem lookup_putFile (place p : Path) (content : List UInt8) (files : List (Path × List UInt8)) :
    (putFile place content files).lookup p =
      if p = place then some content else files.lookup p := by
  induction files with
  | nil =>
    rw [putFile, List.lookup_cons]
    by_cases hp : p = place
    · simp [hp]
    · simp [hp, beq_false_of_ne hp]
  | cons f rest ih =>
    rcases f with ⟨q, old⟩
    rw [putFile]
    by_cases hq : q = place
    · subst hq
      rw [if_pos rfl, List.lookup_cons, List.lookup_cons]
      by_cases hp : p = q
      · simp [hp]
      · simp [hp, beq_false_of_ne hp]
    · rw [if_neg hq, List.lookup_cons, List.lookup_cons, ih]
      by_cases hp : p = q
      · simp [hp, hq]
      · simp [beq_false_of_ne hp]

/-- No other place becomes that of a file. -/
theorem exists_mem_putFile_iff {place : Path} {content : List UInt8}
    {files : List (Path × List UInt8)} {P : Path → Prop} :
    (∃ f ∈ putFile place content files, P f.1) ↔ P place ∨ ∃ f ∈ files, P f.1 := by
  induction files with
  | nil => simp [putFile]
  | cons f rest ih =>
    rw [putFile]
    split
    · rename_i heq
      simp [heq]
    · rw [List.exists_mem_cons_iff, List.exists_mem_cons_iff, ih]
      exact or_left_comm

/-- A file in a directory makes no new directories. -/
theorem isDirectory_putFile {place : Path} (h : tree.Enclosed place) (content : List UInt8)
    (p : Path) :
    isDirectory { tree with files := putFile place content tree.files } p =
      tree.isDirectory p := by
  rw [Bool.eq_iff_iff, isDirectory_iff,
    exists_mem_putFile_iff (P := fun q => p <+: q ∧ p ≠ q)]
  constructor
  · rintro (hworking | hlisted | ⟨haround, hne⟩ | hfile)
    · exact isDirectory_iff.2 (.inl hworking)
    · exact isDirectory_iff.2 (.inr (.inl hlisted))
    · exact h p haround hne
    · exact isDirectory_iff.2 (.inr (.inr hfile))
  · intro hdirectory
    exact (isDirectory_iff.1 hdirectory).imp id (Or.imp id .inr)

/-- The entries of a tree in which a place has a new content. -/
theorem entry_putFile {place : Path} (h : tree.Enclosed place) (content : List UInt8) (p : Path) :
    entry { tree with files := putFile place content tree.files } p =
      if p = place then .file content else tree.entry p := by
  rw [entry, lookup_putFile, isDirectory_putFile h]
  by_cases hp : p = place
  · rw [if_pos hp, if_pos hp]
  · rw [if_neg hp, if_neg hp]
    rfl

/-! ## Reading and writing -/

/-- Reading succeeds exactly if the path leads to a file and does not ask for a directory. -/
theorem read_eq_ok_iff_entry {path : String} {bytes : List UInt8} :
    tree.read path = .ok bytes ↔
      asksDirectory path = false ∧
        ∃ place, tree.locate path = .ok place ∧ tree.entry place = .file bytes := by
  rw [read, except_bind_eq_ok_iff, ← exists_and_left]
  refine exists_congr fun place => ?_
  rw [and_left_comm]
  refine and_congr_right fun _ => ?_
  cases tree.entry place with
  | file content => cases asksDirectory path <;> simp [eq_comm]
  | directory | nothing => simp

/-- A path leads to a place that can be written: it does not ask for a directory, and the place is
none. -/
structure Leads (tree : FileTree) (path : String) (place : Path) : Prop where
  no_slash : asksDirectory path = false
  locate_eq : tree.locate path = .ok place
  entry_ne : tree.entry place ≠ .directory

/-- Writing succeeds exactly if the path leads to a place that can be written, and then the place
has the new content. -/
theorem write_eq_ok_iff {path : String} {content : List UInt8} {after : FileTree} :
    tree.write path content = .ok after ↔
      ∃ place, tree.Leads path place ∧
        after = { tree with files := putFile place content tree.files } := by
  unfold write
  by_cases hslash : asksDirectory path = true
  · rw [if_pos hslash]
    constructor
    · intro h
      obtain ⟨_, -, h⟩ := except_bind_eq_ok_iff.1 h
      cases h
    · rintro ⟨place, hplace, -⟩
      rw [hplace.no_slash] at hslash
      cases hslash
  · rw [if_neg hslash, except_bind_eq_ok_iff]
    constructor
    · rintro ⟨place, hlocate, h⟩
      split at h
      · cases h
      · rename_i hentry
        cases h
        exact ⟨place, ⟨Bool.eq_false_iff.2 hslash, hlocate, hentry⟩, rfl⟩
    · rintro ⟨place, hplace, rfl⟩
      exact ⟨place, hplace.locate_eq, if_neg hplace.entry_ne⟩

/-- A tree differs from another one in the content of one place, which is no directory. -/
structure Replaces (before after : FileTree) (place : Path) (content : List UInt8) : Prop where
  workingDirectory_eq : after.workingDirectory = before.workingDirectory
  entry_ne : before.entry place ≠ .directory
  /-- The place is that of a file with the new content. -/
  entry_self : after.entry place = .file content
  /-- What is at all other places stays. -/
  entry_eq : ∀ p, p ≠ place → after.entry p = before.entry p

/-- Writing replaces the content of the place where the path leads. -/
theorem Leads.replaces {path : String} {place : Path} (h : tree.Leads path place)
    (content : List UInt8) :
    Replaces tree { tree with files := putFile place content tree.files } place content where
  workingDirectory_eq := rfl
  entry_ne := h.entry_ne
  entry_self := by rw [entry_putFile (enclosed_of_locate h.locate_eq), if_pos rfl]
  entry_eq p hp := by rw [entry_putFile (enclosed_of_locate h.locate_eq), if_neg hp]

namespace Replaces

variable {before after : FileTree} {place : Path} {content : List UInt8}

/-- The same places are directories. -/
theorem entry_eq_directory_iff (h : Replaces before after place content) {p : Path} :
    after.entry p = .directory ↔ before.entry p = .directory := by
  by_cases hp : p = place
  · rw [hp, h.entry_self]
    exact ⟨fun hfile => (Entry.noConfusion hfile), fun hdirectory => absurd hdirectory h.entry_ne⟩
  · rw [h.entry_eq p hp]

/-- Names lead where they led before. -/
theorem follow_eq_ok_iff (h : Replaces before after place content) {here p : Path}
    {names : List String} :
    after.follow here names = .ok p ↔ before.follow here names = .ok p := by
  induction names generalizing here with
  | nil => exact Iff.rfl
  | cons name rest ih =>
    by_cases hdirectory : before.entry here = .directory
    · rw [follow, follow, h.entry_eq_directory_iff.2 hdirectory, hdirectory]
      dsimp only
      split
      · exact ih
      · split
        · exact ih
        · split
          · exact Iff.rfl
          · exact ih
    · exact iff_of_false
        (fun hok => hdirectory (h.entry_eq_directory_iff.1 (entry_of_follow_cons hok)))
        fun hok => hdirectory (entry_of_follow_cons hok)

/-- Paths lead where they led before. -/
theorem locate_eq_ok_iff (h : Replaces before after place content) {path : String} {p : Path} :
    after.locate path = .ok p ↔ before.locate path = .ok p := by
  rw [locate, locate, walk, walk, h.workingDirectory_eq]
  split
  · exact Iff.rfl
  · exact h.follow_eq_ok_iff

/-- What can be read: the new content by the paths that lead to its place, and what could be read
before by others. -/
theorem read_eq_ok_iff (h : Replaces before after place content) {path : String}
    {bytes : List UInt8} :
    after.read path = .ok bytes ↔
      if before.locate path = .ok place then asksDirectory path = false ∧ bytes = content
      else before.read path = .ok bytes := by
  rw [read_eq_ok_iff_entry, read_eq_ok_iff_entry]
  split
  · rename_i hplace
    constructor
    · rintro ⟨hslash, p, hp, hentry⟩
      obtain rfl : p = place :=
        Except.ok.inj ((h.locate_eq_ok_iff.1 hp).symm.trans hplace)
      rw [h.entry_self] at hentry
      cases hentry
      exact ⟨hslash, rfl⟩
    · rintro ⟨hslash, rfl⟩
      exact ⟨hslash, place, h.locate_eq_ok_iff.2 hplace, h.entry_self⟩
  · rename_i hother
    have hne (p : Path) (hp : before.locate path = .ok p) : p ≠ place := by
      rintro rfl
      exact hother hp
    refine and_congr_right fun _ => exists_congr fun p => ?_
    rw [h.locate_eq_ok_iff]
    exact and_congr_right fun hp => by rw [h.entry_eq p (hne p hp)]

end Replaces

end LineBasic.Command.FileTree
