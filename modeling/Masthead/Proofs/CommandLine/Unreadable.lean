import Masthead.Proofs.CommandLine.Account

/-!
# Files that cannot be read

A dry run reads a file first and a run that edits it reads it last, so they may find different faults
with a file that cannot be read.
-/
namespace Masthead

namespace Editor
open FileSystem

variable {e : Editor} {s : Header.Surroundings} {job : Job} {fs : FileSystem} {cause : IoError}

/-- What editing a file comes to that cannot be read. The file is looked for first and read last. -/
def unreadableFailure (e : Editor) (s : Header.Surroundings) (job : Job) (fs : FileSystem)
    (cause : IoError) : Failure :=
  if fs.kind? job.path ≠ some .file then CreationError.failure ⟨job.path, .fileNotFound⟩ none
  else match e.ruleFor s job (fs.birthTime? job.path) with
    | .error why => CreationError.failure ⟨job.path, why⟩ none
    | .ok rule =>
      if !job.ignoreNonCommentText && !rule.isValid then .nonCommentText job.path none
      else .ofDocumentError job.path none (.io job.path cause)

theorem run_edit_of_unreadable (hsource : job.source = .onDisk)
    (hread : fs.readText job.path = .error cause) :
    (e.edit s job).run fs = (.error (e.unreadableFailure s job fs cause), fs) := by
  unfold unreadableFailure
  by_cases hkind : fs.kind? job.path = some .file
  · have hpresent := run_isMissing_of_file hsource hkind
    rw [if_neg (not_not.mpr hkind)]
    cases hrule : e.ruleFor s job (fs.birthTime? job.path) with
    | error why => rw [run_edit_of_error hpresent hrule, Job.content?, hsource]
    | ok rule =>
      rw [run_edit_of_ok hpresent hrule, hsource]
      dsimp only
      unfold apply
      rw [Job.content?, hsource]
      cases !job.ignoreNonCommentText && !rule.isValid with
      | true => rfl
      | false =>
        dsimp only
        rw [if_neg Bool.false_ne_true, if_neg Bool.false_ne_true, Task.run_bind,
          Header.Document.reviseFile, Task.run_bind, Header.run_load, hread]
        rfl
  · rw [if_pos hkind, run_edit_of_missing hsource hkind]

end Editor

namespace CommandLine
open FileSystem Editor Report Run

variable {p : Plan} {s : Header.Surroundings} {fs : FileSystem} {files : List Path} {path : Path}
  {cause : IoError}

/-- Nothing but the bytes of the file keeps a run from editing it, or the language is invalid, which
counts as the same kind of error. -/
def onlyBytesFail (p : Plan) (s : Header.Surroundings) (fs : FileSystem) (path : Path) : Bool :=
  match p.editor.ruleFor s (p.job path .onDisk) (fs.birthTime? path) with
  | .ok rule => p.ignoreNonCommentText || rule.isValid
  | .error (.invalidLanguage _) => true
  | .error _ => false

theorem notUtf8_of_file (hkind : fs.kind? path = some .file) (hread : fs.readText path = .error cause) :
    cause = .notUtf8 := by
  obtain ⟨l, file, hentry⟩ := Header.exists_file_of_kind? hkind
  simp only [FileSystem.readText, hentry, bind, Except.bind] at hread
  cases hcontent : file.content with
  | text t =>
    rw [hcontent] at hread
    cases hread
  | bytes bs =>
    rw [hcontent] at hread
    cases hread
    rfl

theorem filter_path {recorded : List (Except Failure Edit)} {f : Path → Except Failure Edit}
    (hperm : recorded.Perm (files.map f)) (hf : ∀ q, pathOfResult (f q) = q) (hnodup : files.Nodup)
    (hpath : path ∈ files) : recorded.filter (pathOfResult · = path) = [f path] := by
  have hone : (files.map f).filter (pathOfResult · = path) = [f path] := by
    rw [List.filter_map]
    have hsame : (fun result => decide (pathOfResult result = path)) ∘ f = (· == path) := by
      funext q
      rw [Function.comp_apply, hf, Bool.eq_iff_iff, decide_eq_true_iff, beq_iff_eq]
    rw [hsame, List.filter_beq, List.count_eq_one_of_mem hnodup hpath]
    rfl
  exact List.perm_singleton.mp (hone ▸ hperm.filter _)

/-- The two kinds are the same exactly if there is nothing at the path, or if there is a file and
only its bytes keep it from being edited. -/
theorem kind_eq_iff (hread : fs.readText path = .error cause) :
    (readFailure path cause).kind =
        (p.editor.unreadableFailure s (p.job path .onDisk) fs cause).kind ↔
      cause = .notFound ∨ fs.kind? path = some .file ∧ onlyBytesFail p s fs path := by
  have hpath : (p.job path .onDisk).path = path := rfl
  have hignore : (p.job path .onDisk).ignoreNonCommentText = p.ignoreNonCommentText := rfl
  unfold unreadableFailure onlyBytesFail
  rw [hpath, hignore]
  by_cases hkind : fs.kind? path = some .file
  · obtain rfl := notUtf8_of_file hkind hread
    have hdry : (readFailure path .notUtf8).kind = .miscellaneous := rfl
    rw [if_neg (not_not.mpr hkind), hdry]
    cases p.editor.ruleFor s (p.job path .onDisk) (fs.birthTime? path) with
    | error why => cases why <;> simp [hkind, CreationError.failure, CreationError.kind]
    | ok rule =>
      have hrefused : (Failure.nonCommentText path none).kind = .nonCommentText := rfl
      have hunread : (Failure.ofDocumentError path none (.io path .notUtf8)).kind =
        .miscellaneous := rfl
      cases p.ignoreNonCommentText <;> cases hvalid : rule.isValid <;>
        simp [hkind, hvalid, hrefused, hunread]
  · rw [if_pos hkind]
    by_cases hfound : cause = .notFound <;>
      simp [hkind, hfound, readFailure, CreationError.failure, CreationError.kind]

/-- What each kind of run records of a file that cannot be read. The two agree on the kind of failure
only if there is nothing at the path, or if nothing but its bytes keeps the file from being edited. -/
theorem unreadable_kind_eq_iff (hfiles : Header.Separate fs files) (hpath : path ∈ files)
    (hread : fs.readText path = .error cause) : ∃ planned done : Failure,
      (∀ saveTo recorded summary fs', Checked p s saveTo fs files recorded summary fs' →
        recorded.filter (pathOfResult · = path) = [.error planned]) ∧
      (∀ results b fs', Edited p s fs files results b fs' →
        results.filter (pathOfResult · = path) = [.error done]) ∧
      (planned.kind = done.kind ↔
        cause = .notFound ∨ fs.kind? path = some .file ∧ onlyBytesFail p s fs path) := by
  have hnodup : files.Nodup := hfiles.different.of_map _
  refine ⟨readFailure path cause, p.editor.unreadableFailure s (p.job path .onDisk) fs cause,
    ?_, ?_, kind_eq_iff hread⟩
  · intro saveTo recorded summary fs' h
    rw [filter_path h.recorded_perm.1 (path_of_recordOf p s fs) hnodup hpath,
      recordOf_of_error hread]
  · intro results b fs' h
    have hpaths : ∀ q, pathOfResult ((p.editor.edit s (p.job q .onDisk)).run fs).1 = q :=
      fun q => (yields_edit p.editor s (p.job q .onDisk)).run fs
    rw [filter_path (h.results_perm hfiles).1 hpaths hnodup hpath, run_edit_of_unreadable rfl hread]

/-- A file of bytes that are no text, and a definition file of such bytes. -/
def undecodable : FileSystem where
  entries := [([Text.encode "b.go".toList], .file { content := .bytes [255] }),
    ([Text.encode "x.licenseheader".toList], .file { content := .bytes [255] })]
  workingDirectory := []

def bytesPath : Path := Path.ofText "b.go".toList

def definitionPath : Path := Path.ofText "x.licenseheader".toList

theorem unreadableFailure_definition :
    goPlan.editor.unreadableFailure ⟨⟨0⟩, none⟩ (goPlan.job definitionPath .onDisk)
      undecodable .notUtf8 = ⟨definitionPath, none, .definitionFile,
        "x.licenseheader is a header definition file and is not modified".toList⟩ := by
  decide +kernel

/-- The kinds agree for the one file and not for the other. -/
theorem unreadable_kinds_undecodable :
    Header.Separate undecodable [bytesPath, definitionPath] ∧
    ∀ path ∈ [bytesPath, definitionPath],
      undecodable.readText path = .error .notUtf8 ∧ ∃ planned done : Failure,
        (∀ saveTo recorded summary fs', Checked goPlan ⟨⟨0⟩, none⟩ saveTo undecodable
          [bytesPath, definitionPath] recorded summary fs' →
            recorded.filter (pathOfResult · = path) = [.error planned]) ∧
        (∀ results b fs', Edited goPlan ⟨⟨0⟩, none⟩ undecodable
          [bytesPath, definitionPath] results b fs' →
            results.filter (pathOfResult · = path) = [.error done]) ∧
        (planned.kind = done.kind ↔ path = bytesPath) := by
  have hfiles : Header.Separate undecodable [bytesPath, definitionPath] :=
    ⟨by decide +kernel, by decide +kernel, by decide +kernel⟩
  have hread : ∀ path ∈ [bytesPath, definitionPath],
      undecodable.readText path = .error .notUtf8 := by decide +kernel
  have hbytes : ∀ path ∈ [bytesPath, definitionPath],
      (undecodable.kind? path = some .file ∧
        onlyBytesFail goPlan ⟨⟨0⟩, none⟩ undecodable path ↔ path = bytesPath) := by
    decide +kernel
  refine ⟨hfiles, fun path hpath => ⟨hread path hpath, ?_⟩⟩
  obtain ⟨planned, done, hplanned, hdone, hkinds⟩ := unreadable_kind_eq_iff
    (p := goPlan) (s := ⟨⟨0⟩, none⟩) hfiles hpath (hread path hpath)
  refine ⟨planned, done, hplanned, hdone, hkinds.trans ?_⟩
  simpa using hbytes path hpath

/-- A definition file that is no text is skipped by a run that edits the files, but a dry run calls it
an error. -/
theorem not_unreadable_kinds_agree : ¬ ∀ (p : Plan) (s : Header.Surroundings) (fs : FileSystem)
    (path : Path) (cause : IoError) (recorded results : List (Except Failure Edit))
    (summary : Summary) (b : FileBatch) (fs' edited : FileSystem),
    fs.readText path = .error cause → Checked p s none fs [path] recorded summary fs' →
    Edited p s fs [path] results b edited → ∃ planned done : Failure,
      recorded = [.error planned] ∧ results = [.error done] ∧ planned.kind = done.kind := by
  intro h
  have hread : undecodable.readText definitionPath = .error .notUtf8 := by rfl
  obtain ⟨recorded, summary, fs', hchecked⟩ :=
    exists_checked goPlan ⟨⟨0⟩, none⟩ undecodable [definitionPath]
  obtain ⟨results, b, edited, hedited⟩ :=
    exists_edited goPlan ⟨⟨0⟩, none⟩ undecodable [definitionPath]
  obtain ⟨planned, done, rfl, rfl, hkind⟩ := h _ _ _ _ _ _ _ _ _ _ _ hread hchecked hedited
  have hplanned := List.perm_singleton.mp hchecked.recorded_perm.1
  have hdone := List.perm_singleton.mp ((hedited.results_perm (Header.separate_singleton _ _)).1)
  dsimp only at hdone
  rw [recordOf_of_error hread] at hplanned
  rw [run_edit_of_unreadable rfl hread, unreadableFailure_definition] at hdone
  cases hplanned
  cases hdone
  cases hkind

end CommandLine

end Masthead
