import LineBasic.Command.Session
import LineBasic.Proofs.Check.Checked
import LineBasic.Proofs.Command.FileTree
import LineBasic.Proofs.Machine.LineInput
import LineBasic.Proofs.Machine.PrintedLines

/-!
# What an invocation changes

An invocation with one action goes through the steps of this action up to the first one that fails.
Its exit code says whether one failed, and then this one is reported.  Files stay as they are but
for a destination that all steps lead to, and only what an action is for appears on the output.
Which arguments ask for an action is up to a parser that can be any function.  Lines that are logged
on request are left out.

Main definitions:

- `StopsAt`: the first step of an action that fails.
- `Ending`: what an action leaves.
- `Invoked`: what an invocation leaves.

Main results:

- `World.perform_interpret` and its like: what each action gives.
- `ending_perform`: every action ends in one of four ways.
- `stopsAt_iff`: actions fail at their first step that fails.
- `World.invoked`: invocations change only what they should.
-/

namespace LineBasic.Command

open Machine

/-! ## Steps -/

/-- The file that an action reads a program from. -/
def Action.source? : Action → Option String
  | outline src => some src
  | interpret src => some src
  | assemble [src, _] => some src
  | assemble _ => none

/-- The actions that read a program. -/
theorem Action.cases_of_source? {a : Action} {src : String} (h : a.source? = some src) :
    a = .outline src ∨ a = .interpret src ∨ ∃ dst, a = .assemble [src, dst] := by
  unfold source? at h
  split at h
  · cases h
    exact .inl rfl
  · cases h
    exact .inr (.inl rfl)
  · cases h
    exact .inr (.inr ⟨_, rfl⟩)
  · cases h

/-- Only without two files there is no program to read. -/
theorem Action.exists_files_of_source?_eq_none {a : Action} (h : a.source? = none) :
    ∃ files, a = .assemble files ∧ files.length ≠ 2 := by
  unfold source? at h
  split at h
  · cases h
  · cases h
  · cases h
  · rename_i files hfiles
    refine ⟨files, rfl, fun htwo => ?_⟩
    obtain ⟨src, dst, rfl⟩ := List.length_eq_two.1 htwo
    exact hfiles src dst rfl

/-- The first step of an action that fails: there are not two files, or the source cannot be read,
or it is no text, or this is refused; then a run can fail, and a destination can be unwritable. -/
inductive StopsAt (w : World) : Action → Failure → Prop
  | fileCount {files : List String} (h : files.length ≠ 2) : StopsAt w (.assemble files) .fileCount
  | unreadable {a : Action} {src : String} {e : FileError} (ha : a.source? = some src)
      (h : w.tree.read src = .error e) : StopsAt w a (.cannotRead src e)
  | noText {a : Action} {src : String} {bytes : List UInt8} (ha : a.source? = some src)
      (hread : w.tree.read src = .ok bytes) (h : ¬ IsText bytes) :
      StopsAt w a (.cannotRead src .invalidText)
  | refused {a : Action} {src source : String} {e : SourceError} (ha : a.source? = some src)
      (hread : w.tree.read src = .ok (encode source)) (h : RefusedWith source e) :
      StopsAt w a (.source e)
  | runtime {src source : String} {checked : Checked} {e : RuntimeError}
      (hread : w.tree.read src = .ok (encode source)) (hcheck : check source = .ok checked)
      (h : (outcome checked.program checked.scope (.start checked.scope w.stdin none)).1 = some e) :
      StopsAt w (.interpret src) (.runtime e)
  | unwritable {src dst source text : String} {e : FileError}
      (hread : w.tree.read src = .ok (encode source)) (htext : assemblyText source = .ok text)
      (h : w.tree.write dst (encode text) = .error e) :
      StopsAt w (.assemble [src, dst]) (.cannotWrite dst e)

/-! ## Actions -/

/-- Actions on plain values. -/
abbrev Acting := ExceptT Failure (StateM World)

/-- What a session does in the world never stops an action. -/
theorem run_liftM_acting {α : Type} (x : StateM World α) (w : World) :
    (liftM x : Acting α).run.run w = (.ok (x.run w).1, (x.run w).2) :=
  rfl

/-- An action goes on with what the one before gives, in the world that this leaves. -/
theorem run_bind_acting {α β : Type} (x : Acting α) (f : α → Acting β) (w : World) :
    (x >>= f).run.run w =
      match x.run.run w with
      | (.ok a, w') => (f a).run.run w'
      | (.error e, w') => (.error e, w') := by
  rw [ExceptT.run_bind, StateT.run_bind]
  rcases x.run.run w with ⟨_ | _, w'⟩ <;> rfl

namespace World

/-- What an action gives, and the world that it leaves. -/
def perform (w : World) (a : Action) : Except Failure Unit × World :=
  (Command.perform host a).run.run w

/-- The text of a source file, or why there is none. -/
def source (w : World) (path : String) : Except Failure String :=
  match w.tree.read path with
  | .error e => .error (.cannotRead path e)
  | .ok bytes =>
    match decode? bytes with
    | some text => .ok text
    | none => .error (.cannotRead path .invalidText)

/-- The world behind a run. -/
def played (w : World) (s : State) : World :=
  { w with stdin := s.input.flatten, stdout := w.stdout ++ s.output.written.toList }

theorem run_readSource (w : World) (path : String) :
    (readSource host path).run.run w = (w.source path, w) := by
  have hread : (host.read path).run w = (w.tree.read path, w) := rfl
  rw [readSource, run_bind_acting, run_liftM_acting, hread, source]
  cases w.tree.read path with
  | error e => rfl
  | ok bytes =>
    dsimp only
    cases decode? bytes <;> rfl

section Parts

variable {w : World} {path : String} {α : Type}

theorem run_readSource_bind_of_ok {text : String} (h : w.source path = .ok text)
    (rest : String → Acting α) :
    (readSource host path >>= rest).run.run w = (rest text).run.run w := by
  rw [run_bind_acting, run_readSource, h]

theorem run_readSource_bind_of_error {f : Failure} (h : w.source path = .error f)
    (rest : String → Acting α) :
    (readSource host path >>= rest).run.run w = (.error f, w) := by
  rw [run_bind_acting, run_readSource, h]

theorem run_accept_bind_of_ok {β : Type} {x : Except SourceError β} {v : β} (h : x = .ok v)
    (rest : β → Acting α) : (accept x >>= rest).run.run w = (rest v).run.run w := by
  rw [h]
  rfl

theorem run_accept_bind_of_error {β : Type} {x : Except SourceError β} {e : SourceError}
    (h : x = .error e) (rest : β → Acting α) :
    (accept x >>= rest).run.run w = (.error (.source e), w) := by
  rw [h]
  rfl

end Parts

/-- A source file has a text if it holds the encoding of the text. -/
theorem source_eq_ok_iff {w : World} {path text : String} :
    w.source path = .ok text ↔ w.tree.read path = .ok (encode text) := by
  rw [source]
  cases w.tree.read path with
  | error e => simp
  | ok bytes =>
    rw [Except.ok.injEq, eq_comm (a := bytes), ← decode?_eq_some_iff]
    dsimp only
    cases decode? bytes <;> simp

/-- An action stops at a source file without a text. -/
theorem stopsAt_of_source_eq_error {w : World} {a : Action} {path : String} {f : Failure}
    (ha : a.source? = some path) (h : w.source path = .error f) :
    StopsAt w a f ∧ ∀ e, f ≠ .runtime e := by
  rw [source] at h
  cases hread : w.tree.read path with
  | error e =>
    rw [hread] at h
    cases h
    exact ⟨.unreadable ha hread, by simp⟩
  | ok bytes =>
    rw [hread] at h
    cases hdecode : decode? bytes with
    | some text =>
      simp only [hdecode] at h
      cases h
    | none =>
      simp only [hdecode] at h
      cases h
      exact ⟨.noText ha hread (decode?_eq_none_iff.1 hdecode), by simp⟩

/-- What an action gives whose source has no text. -/
theorem perform_of_source_eq_error {w : World} {a : Action} {path : String} {f : Failure}
    (ha : a.source? = some path) (h : w.source path = .error f) : w.perform a = (.error f, w) := by
  obtain rfl | rfl | ⟨dst, rfl⟩ := Action.cases_of_source? ha <;>
    exact run_readSource_bind_of_error h _

/-- What an action gives whose source is refused. -/
theorem perform_of_check_eq_error {w : World} {a : Action} {path text : String} {e : SourceError}
    (ha : a.source? = some path) (h : w.source path = .ok text) (hcheck : check text = .error e) :
    w.perform a = (.error (.source e), w) := by
  have houtline : outline text = .error e := by
    rw [outline_eq, hcheck]
    rfl
  have hassembly : assemblyText text = .error e := by
    rw [assemblyText_eq, hcheck]
    rfl
  obtain rfl | rfl | ⟨dst, rfl⟩ := Action.cases_of_source? ha
  · exact (run_readSource_bind_of_ok h _).trans (run_accept_bind_of_error houtline _)
  · exact (run_readSource_bind_of_ok h _).trans (run_accept_bind_of_error hcheck _)
  · exact (run_readSource_bind_of_ok h _).trans (run_accept_bind_of_error hassembly _)

/-- What showing the outline of an accepted text gives. -/
theorem perform_outline {w : World} {path text shown : String} (h : w.source path = .ok text)
    (hshown : outline text = .ok shown) :
    w.perform (.outline path) = (.ok (), { w with stdout := w.stdout ++ encode shown }) := by
  rw [perform, Command.perform, run_readSource_bind_of_ok h, run_accept_bind_of_ok hshown]
  rfl

/-- What running a program gives. -/
theorem run_playProgram (w : World) (checked : Checked) :
    (playProgram checked).run w =
      match (run checked.program checked.scope).run (.start checked.scope w.stdin none) with
      | .ok ended s => (.ok ended, w.played s)
      | .error e s => (.error e, w.played s) := by
  rw [playProgram, StateT.run_bind, StateT.run_get]
  change StateT.run (match (run checked.program checked.scope).run
    (.start checked.scope w.stdin none) with | .ok ended s => _ | .error e s => _) w = _
  cases (run checked.program checked.scope).run (.start checked.scope w.stdin none) <;> rfl

/-- What running an accepted text gives. -/
theorem perform_interpret {w : World} {path text : String} {checked : Checked}
    (h : w.source path = .ok text) (hcheck : check text = .ok checked) :
    w.perform (.interpret path) =
      let (failure?, s) :=
        outcome checked.program checked.scope (.start checked.scope w.stdin none)
      (failure?.elim (.ok ()) fun e => .error (.runtime e), w.played s) := by
  rw [perform, Command.perform, run_readSource_bind_of_ok h, run_accept_bind_of_ok hcheck]
  change (liftM (playProgram checked) >>= _ : Acting Unit).run.run w = _
  rw [run_bind_acting, run_liftM_acting, run_playProgram, outcome]
  cases (run checked.program checked.scope).run (.start checked.scope w.stdin none) <;> rfl

/-- What writing a file gives. -/
theorem run_writeFile (w : World) (path : String) (content : List UInt8) :
    (writeFile path content).run w =
      match w.tree.write path content with
      | .ok tree => (.ok (), { w with tree })
      | .error e => (.error e, w) := by
  rw [writeFile, StateT.run_bind, StateT.run_get]
  change StateT.run (match w.tree.write path content with | .ok tree => _ | .error e => _) w = _
  cases w.tree.write path content <;> rfl

/-- What writing the assembly text of an accepted text gives. -/
theorem perform_assemble {w : World} {src dst source text : String} (h : w.source src = .ok source)
    (htext : assemblyText source = .ok text) :
    w.perform (.assemble [src, dst]) =
      match w.tree.write dst (encode text) with
      | .ok tree => (.ok (), { w with tree })
      | .error e => (.error (.cannotWrite dst e), w) := by
  rw [perform, Command.perform, run_readSource_bind_of_ok h, run_accept_bind_of_ok htext]
  change (liftM (writeFile dst (encode text)) >>= _ : Acting Unit).run.run w = _
  rw [run_bind_acting, run_liftM_acting, run_writeFile]
  cases w.tree.write dst (encode text) <;> rfl

/-- What an action without two files gives. -/
theorem perform_of_length_ne {w : World} {files : List String} (h : files.length ≠ 2) :
    w.perform (.assemble files) = (.error .fileCount, w) := by
  rw [perform]
  match files with
  | [] | [_] | _ :: _ :: _ :: _ => rfl
  | [_, _] => exact absurd rfl h

end World

/-! ## What actions leave -/

/-- What an action gives, and the world that it leaves. -/
inductive Ending (w : World) : Action → Except Failure Unit → World → Prop
  /-- A step in front of a run failed, or writing; nothing has changed. -/
  | stopped {a : Action} {f : Failure} (h : StopsAt w a f) (hother : ∀ e, f ≠ .runtime e) :
    Ending w a (.error f) w
  | shown {src source text : String} (hread : w.tree.read src = .ok (encode source))
      (htext : outline source = .ok text) :
    Ending w (.outline src) (.ok ()) { w with stdout := w.stdout ++ encode text }
  | played {src source : String} {checked : Checked} {failure? : Option RuntimeError} {s : State}
      (hread : w.tree.read src = .ok (encode source)) (hcheck : check source = .ok checked)
      (h : outcome checked.program checked.scope (.start checked.scope w.stdin none) =
        (failure?, s)) :
    Ending w (.interpret src) (failure?.elim (.ok ()) fun e => .error (.runtime e)) (w.played s)
  | written {src dst source text : String} {tree : FileTree}
      (hread : w.tree.read src = .ok (encode source)) (htext : assemblyText source = .ok text)
      (h : w.tree.write dst (encode text) = .ok tree) :
    Ending w (.assemble [src, dst]) (.ok ()) { w with tree }

/-- Every action ends in one of these ways. -/
theorem ending_perform (w : World) (a : Action) :
    Ending w a (w.perform a).1 (w.perform a).2 := by
  cases hsource? : a.source? with
  | none =>
    obtain ⟨files, rfl, hlength⟩ := Action.exists_files_of_source?_eq_none hsource?
    rw [World.perform_of_length_ne hlength]
    exact .stopped (.fileCount hlength) (by simp)
  | some src =>
    cases hsource : w.source src with
    | error f =>
      rw [World.perform_of_source_eq_error hsource? hsource]
      obtain ⟨hstops, hother⟩ := World.stopsAt_of_source_eq_error hsource? hsource
      exact .stopped hstops hother
    | ok source =>
      have hread := World.source_eq_ok_iff.1 hsource
      cases hcheck : check source with
      | error e =>
        rw [World.perform_of_check_eq_error hsource? hsource hcheck]
        exact .stopped (.refused hsource? hread (check_eq_error_iff.1 hcheck)) (by simp)
      | ok checked =>
        obtain rfl | rfl | ⟨dst, rfl⟩ := Action.cases_of_source? hsource?
        · have hshown : outline source = .ok checked.program.outline := by
            rw [outline_eq, hcheck]
            rfl
          rw [World.perform_outline hsource hshown]
          exact .shown hread hshown
        · rw [World.perform_interpret hsource hcheck]
          exact .played hread hcheck rfl
        · obtain ⟨text, htext⟩ : ∃ text, assemblyText source = .ok text :=
            ⟨_, by rw [assemblyText_eq, hcheck]; rfl⟩
          rw [World.perform_assemble hsource htext]
          cases hwrite : w.tree.write dst (encode text) with
          | error e => exact .stopped (.unwritable hread htext hwrite) (by simp)
          | ok tree => exact .written hread htext hwrite

/-- An action that fails stops at a step. -/
theorem Ending.stopsAt {w after : World} {a : Action} {r : Except Failure Unit}
    (h : Ending w a r after) {f : Failure} (hr : r = .error f) : StopsAt w a f := by
  cases h with
  | stopped h =>
    cases hr
    exact h
  | shown => cases hr
  | @played _ _ _ failure? _ hread hcheck h =>
    cases failure? with
    | none => cases hr
    | some e =>
      cases hr
      exact .runtime hread hcheck (by rw [h])
  | written => cases hr

/-- An action fails at its first step that fails. -/
theorem stopsAt_iff {w : World} {a : Action} {f : Failure} :
    StopsAt w a f ↔ (w.perform a).1 = .error f := by
  constructor
  · intro h
    cases h with
    | fileCount h => rw [World.perform_of_length_ne h]
    | @unreadable _ src e ha h =>
      have hsource : w.source src = .error (.cannotRead src e) := by rw [World.source, h]
      rw [World.perform_of_source_eq_error ha hsource]
    | @noText _ src bytes ha hread h =>
      have hsource : w.source src = .error (.cannotRead src .invalidText) := by
        simp only [World.source, hread, decode?_eq_none_iff.2 h]
      rw [World.perform_of_source_eq_error ha hsource]
    | refused ha hread h =>
      rw [World.perform_of_check_eq_error ha (World.source_eq_ok_iff.2 hread)
        (check_eq_error_iff.2 h)]
    | runtime hread hcheck h =>
      rw [World.perform_interpret (World.source_eq_ok_iff.2 hread) hcheck]
      dsimp only
      rw [h]
      rfl
    | unwritable hread htext h =>
      rw [World.perform_assemble (World.source_eq_ok_iff.2 hread) htext, h]
  · exact (ending_perform w a).stopsAt

/-! ## Invocations -/

/-- What an invocation with one action leaves. -/
structure Invoked (w : World) (a : Action) (code : UInt32) (after : World) : Prop where
  /-- The exit code is zero if no step fails, and nothing is reported.  Otherwise it is one, and the
  first step that fails, the only one that the action stops at, is reported. -/
  reports :
    (code = 0 ∧ (∀ f, ¬ StopsAt w a f) ∧ after.stderr = w.stderr) ∨
      (code = 1 ∧ ∃ f, (∀ g, StopsAt w a g ↔ g = f) ∧ after.stderr = w.stderr ++ encode f.report)
  /-- Files stay as they are, unless all steps of writing assembly succeed. -/
  keeps : (∀ src dst, a ≠ .assemble [src, dst]) ∨ code ≠ 0 → after.tree = w.tree
  /-- These succeed exactly if the source holds an accepted text and the destination can be
  written. -/
  writes : ∀ src dst, a = .assemble [src, dst] → (code = 0 ↔ ∃ source text place,
    w.tree.read src = .ok (encode source) ∧ assemblyText source = .ok text ∧
      w.tree.Leads dst place)
  /-- Then all of the destination is the assembly text of what the source held before, and all other
  places stay as they are. -/
  replaces : ∀ src dst source text place, a = .assemble [src, dst] →
    w.tree.read src = .ok (encode source) → assemblyText source = .ok text →
      w.tree.Leads dst place →
        w.tree.Replaces after.tree place (encode text) ∧ after.tree.read dst = .ok (encode text)
  /-- Nothing but a run prints anything, unless an outline is shown. -/
  silent : (∀ src, a ≠ .interpret src) → (∀ src, a ≠ .outline src) ∨ code ≠ 0 →
    after.stdout = w.stdout
  /-- The outline of an accepted text is shown. -/
  shows : ∀ src source text, a = .outline src → w.tree.read src = .ok (encode source) →
    outline source = .ok text → code = 0 ∧ after.stdout = w.stdout ++ encode text
  /-- A text that cannot be read or is refused prints nothing. -/
  notRun : ∀ src f, a = .interpret src → StopsAt w a f → (∀ e, f ≠ .runtime e) →
    after.stdout = w.stdout
  /-- An accepted text prints the lines of its run, up to where this ends, with the error that the
  action stops at or without one. -/
  runs : ∀ src source checked, a = .interpret src → w.tree.read src = .ok (encode source) →
    check source = .ok checked → ∃ trace lines s failure?,
      Printout checked.program checked.scope (.start checked.scope w.stdin none) trace lines s ∧
        RunEnds checked.program trace s failure? ∧
        (∀ f, StopsAt w a f ↔ ∃ e, failure? = some e ∧ f = .runtime e) ∧
        after.stdout = w.stdout ++ lines.flatMap fun line => encode (line ++ "\n")

/-- The exit code for what an action gives. -/
def exitCode : Except Failure Unit → UInt32
  | .ok _ => 0
  | .error _ => 1

theorem exitCode_ne_zero_iff {r : Except Failure Unit} : exitCode r ≠ 0 ↔ ∃ f, r = .error f := by
  cases r <;> simp [exitCode]

namespace World

/-- The world in which a failure is reported, if there is one. -/
def reporting (w : World) : Except Failure Unit → World
  | .ok _ => w
  | .error f => { w with stderr := w.stderr ++ encode f.report }

@[simp] theorem tree_reporting (w : World) (r : Except Failure Unit) :
    (w.reporting r).tree = w.tree := by
  cases r <;> rfl

@[simp] theorem stdout_reporting (w : World) (r : Except Failure Unit) :
    (w.reporting r).stdout = w.stdout := by
  cases r <;> rfl

/-- An invocation leaves what its action does, with a report of the failure if there is one. -/
theorem invokeWith_eq {parse : List String → Option Request} {w : World} {args : List String}
    {a : Action} (h : parse args = some (.action a)) :
    w.invokeWith parse args =
      (exitCode (w.perform a).1, (w.perform a).2.reporting (w.perform a).1) := by
  have hperform : (Command.perform host a).run.run w = w.perform a := rfl
  rw [invokeWith, session, h]
  dsimp only
  rw [StateT.run_bind, hperform]
  rcases w.perform a with ⟨_ | _, after⟩ <;> rfl

end World

namespace Ending

variable {w after : World} {a : Action} {r : Except Failure Unit}

/-- Only writing assembly changes files, and only if it succeeds. -/
theorem tree_eq (h : Ending w a r after)
    (hor : (∀ src dst, a ≠ .assemble [src, dst]) ∨ ∃ f, r = .error f) : after.tree = w.tree := by
  cases h with
  | stopped | shown | played => rfl
  | @written src dst =>
    rcases hor with hother | ⟨f, hf⟩
    · exact absurd rfl (hother src dst)
    · cases hf

/-- An action that runs nothing prints nothing, unless it shows an outline. -/
theorem stdout_eq (h : Ending w a r after) (hrun : ∀ src, a ≠ .interpret src)
    (hor : (∀ src, a ≠ .outline src) ∨ ∃ f, r = .error f) : after.stdout = w.stdout := by
  cases h with
  | stopped | written => rfl
  | @played src => exact absurd rfl (hrun src)
  | @shown src =>
    rcases hor with hother | ⟨f, hf⟩
    · exact absurd rfl (hother src)
    · cases hf

/-- An action that stops in front of a run, or without one, prints nothing. -/
theorem stdout_of_error {f : Failure} (h : Ending w a (.error f) after)
    (hother : ∀ e, f ≠ .runtime e) : after.stdout = w.stdout := by
  generalize hr : Except.error f = r at h
  cases h with
  | stopped => rfl
  | shown | written => cases hr
  | @played _ _ _ failure? =>
    cases failure? with
    | none => cases hr
    | some e =>
      cases hr
      exact absurd rfl (hother e)

/-- An action itself reports nothing. -/
theorem stderr_eq (h : Ending w a r after) : after.stderr = w.stderr := by
  cases h <;> rfl

/-- Writing assembly succeeds only if the source holds an accepted text and the destination can be
written. -/
theorem exists_leads {src dst : String} (h : Ending w (.assemble [src, dst]) r after)
    (hr : exitCode r = 0) :
    ∃ source text place, w.tree.read src = .ok (encode source) ∧ assemblyText source = .ok text ∧
      w.tree.Leads dst place := by
  cases h with
  | stopped => cases hr
  | written hread htext h =>
    obtain ⟨place, hleads, -⟩ := FileTree.write_eq_ok_iff.1 h
    exact ⟨_, _, place, hread, htext, hleads⟩

end Ending

/-- What writing assembly gives if the destination can be written. -/
theorem World.perform_of_leads {w : World} {src dst source text : String} {place : Path}
    (hread : w.tree.read src = .ok (encode source)) (htext : assemblyText source = .ok text)
    (hleads : w.tree.Leads dst place) :
    w.perform (.assemble [src, dst]) =
      (.ok (), { w with tree := { w.tree with
        files := FileTree.putFile place (encode text) w.tree.files } }) := by
  rw [perform_assemble (source_eq_ok_iff.2 hread) htext,
    FileTree.write_eq_ok_iff.2 ⟨place, hleads, rfl⟩]

/-- An invocation with one action changes only what it should, whatever reads its arguments. -/
theorem World.invoked {parse : List String → Option Request} {w : World} {args : List String}
    {a : Action} (h : parse args = some (.action a)) :
    Invoked w a (w.invokeWith parse args).1 (w.invokeWith parse args).2 := by
  have hending := ending_perform w a
  rw [invokeWith_eq h]
  constructor
  · have hstderr := hending.stderr_eq
    simp only [stopsAt_iff]
    cases (w.perform a).1 with
    | ok u => exact .inl ⟨rfl, fun f hf => (by cases hf), hstderr⟩
    | error f =>
      refine .inr ⟨rfl, f, fun g => ?_, congrArg (· ++ encode f.report) hstderr⟩
      rw [Except.error.injEq, eq_comm]
  · intro hor
    rw [tree_reporting]
    exact hending.tree_eq (hor.imp id exitCode_ne_zero_iff.1)
  · rintro src dst rfl
    refine ⟨hending.exists_leads, ?_⟩
    rintro ⟨source, text, place, hread, htext, hleads⟩
    rw [perform_of_leads hread htext hleads]
    rfl
  · rintro src dst source text place rfl hread htext hleads
    rw [tree_reporting, perform_of_leads hread htext hleads]
    have hreplaces := hleads.replaces (encode text)
    refine ⟨hreplaces, hreplaces.read_eq_ok_iff.2 ?_⟩
    rw [if_pos hleads.locate_eq]
    exact ⟨hleads.no_slash, rfl⟩
  · intro hrun hor
    rw [stdout_reporting]
    exact hending.stdout_eq hrun (hor.imp id exitCode_ne_zero_iff.1)
  · rintro src source text rfl hread htext
    rw [perform_outline (source_eq_ok_iff.2 hread) htext]
    exact ⟨rfl, rfl⟩
  · rintro src f rfl hstops hother
    rw [stdout_reporting]
    rw [stopsAt_iff.1 hstops] at hending
    exact hending.stdout_of_error hother
  · rintro src source checked rfl hread hcheck
    obtain ⟨trace, lines, hprintout, hends, hwritten⟩ := exists_printout_of_run
      checked.program checked.scope (.start checked.scope w.stdin none) rfl rfl
    refine ⟨trace, lines, _, _, hprintout, hends, fun f => ?_, ?_⟩
    · rw [stopsAt_iff, perform_interpret (source_eq_ok_iff.2 hread) hcheck]
      dsimp only
      cases (outcome checked.program checked.scope (.start checked.scope w.stdin none)).1 with
      | none => simp
      | some e => simp [eq_comm]
    · rw [stdout_reporting, perform_interpret (source_eq_ok_iff.2 hread) hcheck, ← hwritten]
      rfl

/-- Assembly written over its source. -/
theorem World.invoked_onto_source :
    let w : World := { tree := .under ["home"] [(["p"], encode "10 END")] [["old"]] }
    let after := (w.invoke ["-n", "p", "p"]).2
    ∃ text, assemblyText "10 END" = .ok text ∧ (w.invoke ["-n", "p", "p"]).1 = 0 ∧
      after.tree.read "p" = .ok (encode text) ∧ after.tree.entry ["home", "old"] = .directory ∧
      after.stdout = [] := by
  intro w after
  have hargs : parseArguments ["-n", "p", "p"] = some (.action (.assemble ["p", "p"])) := by cbv
  have hcheck : check "10 END" = .ok ⟨⟨[⟨10, .stop⟩]⟩, ⟨⟨"GLOBAL", []⟩, []⟩⟩ := by cbv
  obtain ⟨text, htext⟩ : ∃ text, assemblyText "10 END" = .ok text :=
    ⟨_, by rw [assemblyText_eq, hcheck]; rfl⟩
  have hread : w.tree.read "p" = .ok (encode "10 END") := by cbv
  have hleads : w.tree.Leads "p" ["home", "p"] := ⟨by decide, by cbv, by decide⟩
  have hinvoked := World.invoked (w := w) hargs
  obtain ⟨hreplaces, hafter⟩ := hinvoked.replaces _ _ _ _ _ rfl hread htext hleads
  refine ⟨text, htext, (hinvoked.writes _ _ rfl).2 ⟨_, _, _, hread, htext, hleads⟩, hafter,
    (hreplaces.entry_eq ["home", "old"] (by decide)).trans (by cbv),
    hinvoked.silent (by simp) (.inl (by simp))⟩

end LineBasic.Command
