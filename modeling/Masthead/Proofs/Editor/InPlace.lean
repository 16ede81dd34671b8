import Masthead.Proofs.Editor.Outcome
import Masthead.Proofs.Header.Atomicity
import Masthead.Proofs.Report.Tally

/-!
# Files that are edited in place

A file is edited as its text would be, unless the new text cannot be written back. A file that is not
edited stays as it was, and no copy of it is ever left behind.
-/
namespace Masthead.Editor
open FileSystem

variable {e : Editor} {s : Header.Surroundings} {job : Job} {fs : FileSystem} {t : Text}

theorem mapError_applyRule (job : Job) (content content' : Option Text) (rule : Header.Rule)
    (t : Text) : (applyRule job content rule t).mapError Failure.report =
      (applyRule job content' rule t).mapError Failure.report := by
  rw [applyRule_eq_mapError job content, applyRule_eq_mapError job content']
  cases applyRule job none rule t <;> rfl

theorem mapError_outcome (born : Option Moment) (content content' : Option Text) (t : Text) :
    (e.outcome s job born content t).mapError Failure.report =
      (e.outcome s job born content' t).mapError Failure.report := by
  unfold outcome
  cases e.ruleFor s job born with
  | error cause => rfl
  | ok rule => exact mapError_applyRule job content content' rule t

theorem run_edit_holding (t : Text) : (e.edit s (job.holding t)).run fs =
    (e.outcome s job (fs.birthTime? job.path) (some t) t, fs) := by
  have hpresent : (job.holding t).isMissing.run fs = (false, fs) := rfl
  unfold outcome
  cases hrule : e.ruleFor s job (fs.birthTime? job.path) with
  | error cause => exact run_edit_of_error hpresent hrule
  | ok rule => exact (run_edit_of_ok hpresent hrule).trans (run_apply_holding rule)

theorem ok_of_mapError_eq {α ε δ : Type} {f : ε → δ} {x y : Except ε α} {a : α}
    (h : x.mapError f = y.mapError f) (hy : y = .ok a) : x = .ok a := by
  cases x <;> simp_all [Except.mapError]

/-- Why a changed text cannot be written back, if it cannot. -/
def storeError? (fs : FileSystem) (path : Path) : Except Failure Edit → Option IoError
  | .ok edit => if edit.action.isChange then Header.replacementError? fs path edit.content else none
  | .error _ => none

/-- What has come of a file that was edited in place, if editing its text alone was to end as
planned. -/
structure InPlace (fs : FileSystem) (path : Path) (planned result : Except Failure Edit)
    (after : FileSystem) : Prop where
  same : storeError? fs path planned = none →
    result.mapError Failure.report = planned.mapError Failure.report
  failed : ∀ cause, storeError? fs path planned = some cause →
    result = .error ⟨path, none, .miscellaneous, (Header.DocumentError.io path cause).message⟩
  content : ∀ edit, result = .ok edit → after.readText path = .ok edit.content
  untouched : ∀ failure, result = .error failure → after = fs
  noCopy : after.kind? (Header.temporaryPath path) = none
  frame : AgreeOn {path.target fs.workingDirectory}ᶜ fs after

theorem storeError?_congr {path : Path} {planned result : Except Failure Edit}
    (h : result.mapError Failure.report = planned.mapError Failure.report) :
    storeError? fs path result = storeError? fs path planned := by
  cases result <;> cases planned <;> simp_all [Except.mapError, storeError?]

theorem kind?_copy {path : Path} {after : FileSystem}
    (hsame : AgreeOn {path.target fs.workingDirectory}ᶜ fs after) :
    after.kind? (Header.temporaryPath path) = fs.kind? (Header.temporaryPath path) :=
  kind?_congr (hsame.mono (Set.singleton_subset_iff.mpr (Header.target_copy_ne path _)))

section File

variable {path : Path} {l : Location} {file : File}
  (h : fs.entry path = .ok (l, .file file))
include h

theorem agreeOn_stored (result : Except Failure Edit) :
    AgreeOn {path.target fs.workingDirectory}ᶜ fs (stored fs l file result) := by
  have hl : l = path.target fs.workingDirectory := location_of_locate (locate_of_entry h)
  unfold stored
  split
  · split
    · refine agreeOn_put ?_ ?_ _
      · simp [hl]
      · simp [nodeAt?_of_locate (locate_of_entry h)]
    · exact .refl _ fs
  · exact .refl _ fs

theorem readText_put (new : File) :
    (fs.put l (.file new)).readText path = new.content.decoded := by
  have hnode := nodeAt?_of_locate (locate_of_entry h)
  have hlocate := locate_put (locate_of_entry h) (by simp [Place.location, hnode]) new
  rw [Place.location] at hlocate
  simp [FileSystem.readText, entry, hlocate, Header.endsWithSlash_of_entry h, bind, Except.bind]

end File

section Vacant

variable {path : Path} {l : Location} {file : File}
  (h : fs.entry path = .ok (l, .file file))
  (hvacant : fs.kind? (Header.temporaryPath path) = none)
include h hvacant

theorem concluded_of_vacant (result : Except Failure Edit) : concluded fs path result =
    match storeError? fs path result with
    | some cause =>
      (.error ⟨path, none, .miscellaneous, (Header.DocumentError.io path cause).message⟩, fs)
    | none => (result, stored fs l file result) := by
  cases result with
  | error failure => rfl
  | ok edit =>
    unfold concluded Header.writtenBack storeError? stored
    dsimp only
    by_cases hchange : edit.action.isChange
    · rw [if_pos hchange, if_pos hchange, if_pos hchange, Header.run_replaceFile_of_vacant h hvacant]
      cases Header.replacementError? fs path edit.content <;> rfl
    · rw [if_neg hchange, if_neg hchange, if_neg hchange]

end Vacant

section Edit

variable (hsource : job.source = .onDisk) (htext : fs.readText job.path = .ok t)
  (hvacant : fs.kind? (Header.temporaryPath job.path) = none)
include hsource htext hvacant

theorem inPlace_edit : InPlace fs job.path ((e.edit s (job.holding t)).run fs).1
    ((e.edit s job).run fs).1 ((e.edit s job).run fs).2 := by
  obtain ⟨l, file, hentry, -⟩ := Header.entry_of_readText htext
  rw [run_edit_holding, run_edit_onDisk hsource htext]
  have hreport : (e.outcome s job (fs.birthTime? job.path) none t).mapError Failure.report =
      (e.outcome s job (fs.birthTime? job.path) (some t) t).mapError Failure.report :=
    mapError_outcome _ none (some t) t
  generalize e.outcome s job (fs.birthTime? job.path) (some t) t = planned at hreport ⊢
  have hstored := concluded_of_vacant hentry hvacant
    (e.outcome s job (fs.birthTime? job.path) none t)
  rw [storeError?_congr hreport] at hstored
  rw [hstored]
  cases herror : storeError? fs job.path planned with
  | some cause =>
    exact
      { same := by simp [herror]
        failed := by simp [herror]
        content := by simp
        untouched := fun _ _ => rfl
        noCopy := hvacant
        frame := .refl _ fs }
  | none =>
    have hframe := agreeOn_stored hentry (e.outcome s job (fs.birthTime? job.path) none t)
    refine
      { same := fun _ => hreport
        failed := by simp [herror]
        content := ?_
        untouched := ?_
        noCopy := (kind?_copy hframe).trans hvacant
        frame := hframe }
    · intro edit hedit
      dsimp only at hedit ⊢
      rw [hedit, stored]
      by_cases hchange : edit.action.isChange
      · rw [if_pos hchange, readText_put hentry]
        rfl
      · have hunchanged : edit.action = .unchanged := by
          simpa [Header.Action.isChange] using hchange
        rw [if_neg hchange, htext, content_of_outcome hedit hunchanged]
    · intro failure hfailure
      dsimp only at hfailure ⊢
      rw [hfailure, stored]

theorem throughout_edit {P : FileSystem → Prop} {l : Location} {file : File}
    (hentry : fs.entry job.path = .ok (l, .file file)) (hbefore : P fs)
    (hcopies : ∀ k new, fs.locate (Header.temporaryPath job.path) = .ok (.vacant k) →
      P (fs.put k (.file new)))
    (hafter : ∀ edit, e.outcome s job (fs.birthTime? job.path) none t = .ok edit →
      P (fs.put l (.file (Header.replacement fs file edit.content)))) :
    (e.edit s job).Throughout P fs := by
  have hpresent := run_isMissing_of_file hsource (kind?_of_readText htext)
  unfold edit
  refine Task.throughout_bind.mpr ⟨(readOnly_document job).throughout hbefore, ?_⟩
  cases hrule : e.ruleFor s job (fs.birthTime? job.path) with
  | error cause =>
    rw [run_document_of_error hpresent hrule]
    exact hbefore
  | ok rule =>
    rw [run_document_of_ok hpresent hrule, hsource]
    dsimp only
    rw [outcome, hrule] at hafter
    unfold apply
    cases hvalid : !job.ignoreNonCommentText && !rule.isValid with
    | true => exact hbefore
    | false =>
      rw [hsource]
      have hrevise : (Header.Document.reviseFile ⟨job.path, .onDisk, rule⟩).Throughout P fs :=
        Header.throughout_reviseFile hentry hvacant htext hbefore hcopies fun new hnew =>
          hafter ⟨job.path, new.content, new.action⟩ (by simp [applyRule, hvalid, hnew])
      rw [if_neg Bool.false_ne_true, Task.throughout_bind]
      refine ⟨hrevise, ?_⟩
      cases ((Header.Document.reviseFile ⟨job.path, .onDisk, rule⟩).run fs).1 with
      | error cause => exact hrevise.last
      | ok new => exact hrevise.last

/-- A file is edited in place as its text is edited alone. Nobody who looks in between reads anything
but the old text or the new one. -/
theorem edit_refines_text :
    InPlace fs job.path ((e.edit s (job.holding t)).run fs).1
      ((e.edit s job).run fs).1 ((e.edit s job).run fs).2 ∧
    ∀ n, ((e.edit s job).stateAfter n fs).readText job.path = .ok t ∨
      ∃ edit, ((e.edit s (job.holding t)).run fs).1 = .ok edit ∧
        ((e.edit s job).stateAfter n fs).readText job.path = .ok edit.content := by
  refine ⟨inPlace_edit hsource htext hvacant, fun n => ?_⟩
  obtain ⟨l, file, hentry, -⟩ := Header.entry_of_readText htext
  rw [run_edit_holding]
  refine Task.Throughout.stateAfter (P := fun now => now.readText job.path = .ok t ∨ ∃ edit,
    e.outcome s job (fs.birthTime? job.path) (some t) t = .ok edit ∧
      now.readText job.path = .ok edit.content)
    (throughout_edit hsource htext hvacant hentry (.inl htext) ?_ ?_) n
  · intro k new hcopy
    have hfree := nodeAt?_of_vacant hcopy
    have hne : k ∉ ({l} : Set Location) := by
      rintro rfl
      simp [nodeAt?_of_locate (locate_of_entry hentry)] at hfree
    have hdir : fs.nodeAt? k ≠ some .directory := by simp [hfree]
    have hsame := agreeOn_put hne hdir new
    exact .inl ((leadsInto_of_entry hentry).settled.readText_eq hsame ▸ htext)
  · intro edit hedit
    have hplanned := ok_of_mapError_eq (mapError_outcome (fs.birthTime? job.path) (some t) none t) hedit
    exact .inr ⟨edit, hplanned, readText_put hentry _⟩

end Edit

section OneFile

def goPath : Path := Path.ofText "a.go".toList

/-- A file over which a copy may not be renamed, if `faults` say so. -/
def oneFile (faults : List Fault) : FileSystem where
  entries := [([Text.encode "src".toList], .directory),
    ([Text.encode "src".toList, Text.encode "a.go".toList],
      .file { content := .text "code\n".toList })]
  workingDirectory := [Text.encode "src".toList]
  faults := faults

/-- The copy of the file may not be renamed over it. -/
def blockedRename : Fault :=
  ⟨[Text.encode "src".toList, Text.encode "a.go".toList], true, .busy⟩

def goEditor : Editor := ⟨[Header.slashed], [], 2⟩

def goJob : Job where
  path := goPath
  source := .onDisk
  headers := some ⟨[(".go".toList, ["// %CurrentYear% %FileName%".toList])]⟩
  properties := []
  ignoreNonCommentText := false

theorem outcome_go (content : Option Text) :
    goEditor.outcome ⟨⟨0⟩, none⟩ goJob none content "code\n".toList =
      .ok ⟨goPath, "// 1970 a.go\ncode\n".toList, .inserted⟩ := by
  have hrule : goEditor.ruleFor ⟨⟨0⟩, none⟩ goJob none =
      .ok (Header.slashedRule (some ["// 1970 a.go".toList]) []) := by decide +kernel
  rw [outcome, hrule]
  cbv

/-- The file gets its header, unless the copy cannot be renamed: then there is an error, and everything
is as before. -/
theorem edit_refines_text_go :
    goJob.source = .onDisk ∧ (∀ faults, (oneFile faults).readText goJob.path = .ok "code\n".toList ∧
      (oneFile faults).kind? (Header.temporaryPath goJob.path) = none) ∧
    ((goEditor.edit ⟨⟨0⟩, none⟩ goJob).run (oneFile [])).2.readText goJob.path =
      .ok "// 1970 a.go\ncode\n".toList ∧
    ∃ failure, (goEditor.edit ⟨⟨0⟩, none⟩ goJob).run
        (oneFile [blockedRename]) = (.error failure, oneFile [blockedRename]) ∧
      failure.kind = .miscellaneous := by
  have htext : ∀ faults, (oneFile faults).readText goJob.path = .ok "code\n".toList :=
    fun _ => by rfl
  have hvacant : ∀ faults, (oneFile faults).kind? (Header.temporaryPath goJob.path) = none :=
    fun _ => by rfl
  have hplanned : ∀ faults, (goEditor.edit ⟨⟨0⟩, none⟩ (goJob.holding "code\n".toList)).run
      (oneFile faults) =
        (.ok ⟨goPath, "// 1970 a.go\ncode\n".toList, .inserted⟩,
          oneFile faults) := by
    intro faults
    have hborn : (oneFile faults).birthTime? goJob.path = none := by rfl
    rw [run_edit_holding, hborn, outcome_go]
  refine ⟨rfl, fun faults => ⟨htext faults, hvacant faults⟩, ?_, ?_⟩
  · obtain ⟨h, -⟩ := edit_refines_text (e := goEditor) (s := ⟨⟨0⟩, none⟩) rfl (htext []) (hvacant [])
    rw [hplanned] at h
    have hstore : storeError? (oneFile []) goJob.path
        (.ok ⟨goPath, "// 1970 a.go\ncode\n".toList, .inserted⟩) = none := by
      decide +kernel
    exact h.content _ (ok_of_mapError_eq (h.same hstore) rfl)
  · obtain ⟨h, -⟩ := edit_refines_text (e := goEditor) (s := ⟨⟨0⟩, none⟩) rfl
      (htext [blockedRename]) (hvacant _)
    rw [hplanned] at h
    have hstore : storeError? (oneFile [blockedRename]) goJob.path
        (.ok ⟨goPath, "// 1970 a.go\ncode\n".toList, .inserted⟩) = some .busy := by
      decide +kernel
    have hfailed := h.failed _ hstore
    exact ⟨_, Prod.ext hfailed (h.untouched _ hfailed), rfl⟩

end OneFile

end Masthead.Editor
