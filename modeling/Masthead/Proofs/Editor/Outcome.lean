import Masthead.Editor.Batch
import Masthead.Proofs.Header.Frame
import Masthead.Proofs.Header.Replacement

/-!
# What editing one file comes to

The outcome of a job depends on its text, on when the file was created and on nothing else that the
file system holds. A text that was given and a text that is read from the file give the same one.
-/
namespace Masthead.Editor
open FileSystem

variable (e : Editor) (s : Header.Surroundings)

/-- The job with its text given instead of read from the file. -/
def Job.holding (job : Job) (t : Text) : Job := { job with source := .held t }

/-- The rule for a file that was created at `born`. -/
def ruleFor (job : Job) (born : Option Moment) : Except CreationCause Header.Rule :=
  match e.resolve job with
  | .error cause => .error cause
  | .ok (language, header) =>
    let properties := job.properties ++ Header.Property.builtIn s job.path born
    (Header.Rule.ofLanguage language
      (header.map fun lines => lines.map (Header.Property.expandLine properties))
      e.keywords).mapError .invalidLanguage

/-- Only a header needs to know when the file was created. -/
def isDated (job : Job) : Bool :=
  match e.resolve job with
  | .ok (_, some _) => true
  | _ => false

/-- The document of a job whose file is there and was created at `born`. -/
def documentOf (job : Job) (born : Option Moment) : Except CreationError Header.Document :=
  match e.ruleFor s job born with
  | .error cause => .error ⟨job.path, cause⟩
  | .ok rule => .ok ⟨job.path, job.source, rule⟩

/-- A text edited by a rule. Failures name `content` as what was to be edited. -/
def applyRule (job : Job) (content : Option Text) (rule : Header.Rule) (t : Text) :
    Except Failure Edit :=
  if !job.ignoreNonCommentText && !rule.isValid then .error (.nonCommentText job.path content)
  else match rule.revise t with
    | .error cause => .error (.ofDocumentError job.path content (.comment cause))
    | .ok new => .ok ⟨job.path, new.content, new.action⟩

/-- What becomes of a job for the text `t`. -/
def outcome (job : Job) (born : Option Moment) (content : Option Text) (t : Text) :
    Except Failure Edit :=
  match e.ruleFor s job born with
  | .error cause => .error (CreationError.failure ⟨job.path, cause⟩ content)
  | .ok rule => applyRule job content rule t

variable {e s} {job : Job} {fs : FileSystem} {t : Text}

theorem applyRule_eq_mapError (job : Job) (content : Option Text) (rule : Header.Rule) (t : Text) :
    applyRule job content rule t =
      (applyRule job none rule t).mapError fun failure => { failure with content } := by
  unfold applyRule
  split
  · rfl
  · cases rule.revise t <;> rfl

theorem content_of_applyRule {content : Option Text} {rule : Header.Rule} {edit : Edit}
    (h : applyRule job content rule t = .ok edit) (hunchanged : edit.action = .unchanged) :
    edit.content = t := by
  unfold applyRule at h
  split at h
  · cases h
  · cases hnew : rule.revise t with
    | error cause => simp [hnew] at h
    | ok new =>
      simp only [hnew, Except.ok.injEq] at h
      subst h
      exact Header.Rule.content_of_unchanged hnew hunchanged

theorem content_of_outcome {born : Option Moment} {content : Option Text} {edit : Edit}
    (h : e.outcome s job born content t = .ok edit) (hunchanged : edit.action = .unchanged) :
    edit.content = t := by
  unfold outcome at h
  split at h
  · cases h
  · exact content_of_applyRule h hunchanged

theorem run_map {α β : Type} (f : α → β) (task : Task α) (fs : FileSystem) :
    (f <$> task).run fs = (f (task.run fs).1, (task.run fs).2) := Task.run_bind ..

/-! ## Documents -/

theorem ruleFor_of_not_isDated (h : e.isDated job = false) (born : Option Moment) :
    e.ruleFor s job born = e.ruleFor s job none := by
  unfold isDated at h
  unfold ruleFor
  rcases hresolve : e.resolve job with cause | ⟨language, header | lines⟩
  · rfl
  · rfl
  · simp [hresolve] at h

theorem pure_made (job : Job) (made : Except LanguageError Header.Rule) :
    (match made with
      | .error cause => pure (.error ⟨job.path, .invalidLanguage cause⟩)
      | .ok rule => pure (.ok ⟨job.path, job.source, rule⟩) :
        Task (Except CreationError Header.Document)) =
      pure (match made.mapError .invalidLanguage with
        | .error cause => .error ⟨job.path, cause⟩
        | .ok rule => .ok ⟨job.path, job.source, rule⟩) := by
  cases made <;> rfl

/-- Making a document is asking whether the file is there and, for a header, when it was created. -/
theorem document_eq (e : Editor) (s : Header.Surroundings) (job : Job) :
    e.document s job = job.isMissing >>= fun missing =>
      if missing then pure (.error ⟨job.path, .fileNotFound⟩)
      else (if e.isDated job then Task.birthTime job.path else pure none) >>= fun born =>
        pure (e.documentOf s job born) := by
  unfold document
  refine congrArg (job.isMissing >>= ·) (funext fun missing => ?_)
  cases missing with
  | true => rfl
  | false =>
    rw [if_neg Bool.false_ne_true, if_neg Bool.false_ne_true]
    unfold documentOf ruleFor isDated
    rcases e.resolve job with cause | ⟨language, header | lines⟩
    · rfl
    · exact pure_made job _
    · exact congrArg (Task.call _) (funext fun born => pure_made job _)

section Document

variable (hpresent : job.isMissing.run fs = (false, fs))
include hpresent

theorem run_document : (e.document s job).run fs =
    (match e.ruleFor s job (fs.birthTime? job.path) with
      | .error cause => .error ⟨job.path, cause⟩
      | .ok rule => .ok ⟨job.path, job.source, rule⟩, fs) := by
  rw [document_eq, Task.run_bind, hpresent]
  dsimp only
  rw [if_neg Bool.false_ne_true, Task.run_bind]
  cases hdated : e.isDated job with
  | true => rfl
  | false =>
    rw [ruleFor_of_not_isDated hdated]
    rfl

theorem run_document_of_error {cause : CreationCause}
    (hrule : e.ruleFor s job (fs.birthTime? job.path) = .error cause) :
    (e.document s job).run fs = (.error ⟨job.path, cause⟩, fs) := by
  rw [run_document hpresent, hrule]

theorem run_document_of_ok {rule : Header.Rule}
    (hrule : e.ruleFor s job (fs.birthTime? job.path) = .ok rule) :
    (e.document s job).run fs = (.ok ⟨job.path, job.source, rule⟩, fs) := by
  rw [run_document hpresent, hrule]

theorem run_edit_of_error {cause : CreationCause}
    (hrule : e.ruleFor s job (fs.birthTime? job.path) = .error cause) :
    (e.edit s job).run fs = (.error (CreationError.failure ⟨job.path, cause⟩ job.content?), fs) := by
  unfold edit
  rw [Task.run_bind, run_document_of_error hpresent hrule]
  rfl

theorem run_edit_of_ok {rule : Header.Rule}
    (hrule : e.ruleFor s job (fs.birthTime? job.path) = .ok rule) :
    (e.edit s job).run fs = (apply job ⟨job.path, job.source, rule⟩).run fs := by
  unfold edit
  rw [Task.run_bind, run_document_of_ok hpresent hrule]

end Document

section Missing

variable (hsource : job.source = .onDisk)
include hsource

theorem run_isMissing (fs : FileSystem) :
    job.isMissing.run fs = (!(fs.kind? job.path == some .file), fs) := by
  unfold Job.isMissing
  rw [hsource]
  rfl

theorem run_isMissing_of_file (hkind : fs.kind? job.path = some .file) :
    job.isMissing.run fs = (false, fs) := by
  rw [run_isMissing hsource, hkind]
  rfl

theorem run_document_of_missing (hkind : fs.kind? job.path ≠ some .file) :
    (e.document s job).run fs = (.error ⟨job.path, .fileNotFound⟩, fs) := by
  rw [document_eq, Task.run_bind, run_isMissing hsource, beq_eq_false_iff_ne.mpr hkind]
  rfl

theorem run_edit_of_missing (hkind : fs.kind? job.path ≠ some .file) : (e.edit s job).run fs =
    (.error (CreationError.failure ⟨job.path, .fileNotFound⟩ none), fs) := by
  unfold edit
  rw [Task.run_bind, run_document_of_missing hsource hkind, Job.content?, hsource]
  rfl

end Missing

/-! ## Given texts -/

theorem run_apply_holding (rule : Header.Rule) :
    (apply (job.holding t) ⟨job.path, .held t, rule⟩).run fs = (applyRule job (some t) rule t, fs) := by
  unfold apply applyRule
  cases hvalid : !job.ignoreNonCommentText && !rule.isValid with
  | true =>
    have hrefused : (!(job.holding t).ignoreNonCommentText && !rule.isValid) = true := hvalid
    simp only [hrefused, if_true]
    rfl
  | false =>
    have haccepted : (!(job.holding t).ignoreNonCommentText && !rule.isValid) = false := hvalid
    simp only [haccepted, Bool.false_eq_true, if_false]
    have hrevise : Header.Document.reviseContent ⟨job.path, .held t, rule⟩ =
        (rule.revise t).mapError .comment := rfl
    dsimp only [Job.holding]
    rw [hrevise]
    cases rule.revise t with
    | error cause => rfl
    | ok new => rfl

theorem run_editIfPossible (t : Text) : (e.editIfPossible s (job.holding t)).run fs =
    (match e.ruleFor s job (fs.birthTime? job.path) with
      | .error _ => none
      | .ok rule => some (applyRule job (some t) rule t), fs) := by
  unfold editIfPossible
  have hpresent : (job.holding t).isMissing.run fs = (false, fs) := rfl
  rw [Task.run_bind]
  cases hrule : e.ruleFor s job (fs.birthTime? job.path) with
  | error cause =>
    rw [run_document_of_error hpresent hrule]
    rfl
  | ok rule =>
    rw [run_document_of_ok hpresent hrule]
    have happly : (apply (job.holding t) ⟨(job.holding t).path, (job.holding t).source, rule⟩).run fs =
        (applyRule job (some t) rule t, fs) := run_apply_holding rule
    dsimp only
    rw [Task.run_bind, happly]
    rfl

/-! ## Files -/

/-- What is in the file system once the file at `l` was edited. -/
def stored (fs : FileSystem) (l : Location) (file : File) : Except Failure Edit → FileSystem
  | .ok edit =>
    if edit.action.isChange then fs.put l (.file (Header.replacement fs file edit.content)) else fs
  | .error _ => fs

/-- What the file holds then, if it held `t` before. -/
def storedText (t : Text) : Except Failure Edit → Text
  | .ok edit => if edit.action.isChange then edit.content else t
  | .error _ => t

theorem readText_of_stored {fs' : FileSystem} {path : Path} {directory : Location} {name : Name}
    {file : File} {result : Except Failure Edit} (h : Header.Sites fs path directory name file)
    (htext : file.content = .text t)
    (hsame : AgreeOn {directory ++ [name], directory ++ [Header.copyName name]}
      (stored fs (directory ++ [name]) file result) fs') :
    fs'.readText path = .ok (storedText t result) := by
  obtain ⟨new, hentry, hnew⟩ : ∃ new, (stored fs (directory ++ [name]) file result).entry path =
      .ok (directory ++ [name], .file new) ∧ new.content = .text (storedText t result) := by
    cases result with
    | error failure => exact ⟨file, h.file, htext⟩
    | ok edit =>
      dsimp only [stored, storedText]
      by_cases hchange : edit.action.isChange
      · rw [if_pos hchange, if_pos hchange]
        exact ⟨_, h.entry_put _, rfl⟩
      · rw [if_neg hchange, if_neg hchange]
        exact ⟨file, h.file, htext⟩
  have hleads := (leadsInto_of_entry hentry).mono
    (Set.singleton_subset_iff.mpr (Set.mem_insert _ {directory ++ [Header.copyName name]}))
  rw [hleads.settled.readText_eq hsame, Header.readText_of_entry hentry, hnew]
  rfl

/-- What comes of an outcome once its text is written back. -/
def concluded (fs : FileSystem) (path : Path) :
    Except Failure Edit → Except Failure Edit × FileSystem
  | .error failure => (.error failure, fs)
  | .ok edit =>
    match Header.writtenBack fs path ⟨edit.action, edit.content⟩ with
    | (.error cause, after) => (.error (.ofDocumentError path none (.io path cause)), after)
    | (.ok _, after) => (.ok edit, after)

theorem kind?_of_readText {path : Path} (h : fs.readText path = .ok t) :
    fs.kind? path = some .file := by
  obtain ⟨l, file, hentry, -⟩ := Header.entry_of_readText h
  simp [kind?, hentry, Node.kind]

section File

variable (hsource : job.source = .onDisk) (htext : fs.readText job.path = .ok t)
include hsource htext

theorem run_apply_onDisk (rule : Header.Rule) : (apply job ⟨job.path, .onDisk, rule⟩).run fs =
    concluded fs job.path (applyRule job none rule t) := by
  unfold apply applyRule
  rw [Job.content?, hsource]
  cases !job.ignoreNonCommentText && !rule.isValid with
  | true => rfl
  | false =>
    dsimp only
    rw [if_neg Bool.false_ne_true, if_neg Bool.false_ne_true, Task.run_bind,
      Header.run_reviseFile htext]
    cases rule.revise t with
    | error cause => rfl
    | ok new =>
      dsimp only [concluded]
      obtain ⟨written, after⟩ := Header.writtenBack fs job.path new
      cases written <;> rfl

theorem run_edit_onDisk : (e.edit s job).run fs =
    concluded fs job.path (e.outcome s job (fs.birthTime? job.path) none t) := by
  have hpresent := run_isMissing_of_file hsource (kind?_of_readText htext)
  unfold outcome
  cases hrule : e.ruleFor s job (fs.birthTime? job.path) with
  | error cause =>
    rw [run_edit_of_error hpresent hrule, Job.content?, hsource]
    rfl
  | ok rule =>
    rw [run_edit_of_ok hpresent hrule, hsource]
    exact run_apply_onDisk hsource htext rule

end File

theorem concluded_eq {path : Path} {directory : Location} {name : Name} {file : File}
    (h : Header.Sites fs path directory name file) (result : Except Failure Edit) :
    concluded fs path result = (result, stored fs (directory ++ [name]) file result) := by
  cases result with
  | error failure => rfl
  | ok edit =>
    rw [concluded, h.writtenBack_eq]
    rfl

/-! ## What is touched -/

section Confined

variable (hsource : job.source = .onDisk)
include hsource

theorem confined_document : (e.document s job).Confined (Header.reach fs job.path) fs := by
  have hmissing : job.isMissing.Confined (Header.reach fs job.path) fs := by
    unfold Job.isMissing
    rw [hsource]
    dsimp only
    rw [Task.confined_bind, Task.isFile, Task.confined_bind, Task.confined_kind]
    exact ⟨⟨Header.local_kind fs job.path, trivial⟩, trivial⟩
  rw [document_eq, Task.confined_bind, run_isMissing hsource]
  refine ⟨hmissing, ?_⟩
  by_cases hkind : fs.kind? job.path = some .file
  · obtain ⟨l, file, hentry⟩ := Header.exists_file_of_kind? hkind
    simp only [hkind, beq_self_eq_true, Bool.not_true, Bool.false_eq_true, if_false]
    rw [Task.confined_bind]
    cases e.isDated job with
    | true =>
      have hborn := FileOperation.local_birthTime (Header.leadsInto_reach hentry).settled
      exact ⟨⟨hborn, trivial⟩, trivial⟩
    | false => exact ⟨trivial, trivial⟩
  · simp only [beq_eq_false_iff_ne.mpr hkind, Bool.not_false, if_true]
    trivial

theorem confined_apply {l : Location} {file : File}
    (hentry : fs.entry job.path = .ok (l, .file file)) (rule : Header.Rule) :
    (apply job ⟨job.path, .onDisk, rule⟩).Confined (Header.reach fs job.path) fs := by
  unfold apply
  rw [hsource]
  cases !job.ignoreNonCommentText && !rule.isValid with
  | true => trivial
  | false =>
    dsimp only
    rw [if_neg Bool.false_ne_true, Task.confined_bind]
    refine ⟨Header.confined_reviseFile hentry rule, ?_⟩
    cases ((Header.Document.reviseFile ⟨job.path, .onDisk, rule⟩).run fs).1 <;> trivial

/-- Whether it succeeds or not, editing a file touches the file and its copy only, and nothing if
there is no file. -/
theorem confined_edit : (e.edit s job).Confined (Header.reach fs job.path) fs := by
  unfold edit
  rw [Task.confined_bind]
  refine ⟨confined_document hsource, ?_⟩
  by_cases hkind : fs.kind? job.path = some .file
  · obtain ⟨l, file, hentry⟩ := Header.exists_file_of_kind? hkind
    have hpresent := run_isMissing_of_file hsource hkind
    cases hrule : e.ruleFor s job (fs.birthTime? job.path) with
    | error cause =>
      rw [run_document_of_error hpresent hrule]
      trivial
    | ok rule =>
      rw [run_document_of_ok hpresent hrule, hsource]
      exact confined_apply hsource hentry rule
  · rw [run_document_of_missing hsource hkind]
    trivial

end Confined

/-! ## Tasks that change nothing -/

theorem readOnly_document (job : Job) : (e.document s job).ReadOnly := by
  have hmissing : job.isMissing.ReadOnly := by
    unfold Job.isMissing
    cases job.source with
    | held t => trivial
    | onDisk => exact ⟨fun _ => rfl, fun _ => trivial⟩
  have hdated : (if e.isDated job then Task.birthTime job.path else pure none).ReadOnly := by
    cases e.isDated job with
    | true => exact ⟨fun _ => rfl, fun _ => trivial⟩
    | false => trivial
  rw [document_eq]
  refine Task.readOnly_bind hmissing fun missing => ?_
  cases missing with
  | true => trivial
  | false => exact Task.readOnly_bind hdated fun _ => trivial

theorem readOnly_apply_holding (job : Job) (t : Text) (d : Header.Document) :
    (apply (job.holding t) d).ReadOnly := by
  unfold apply
  split
  · trivial
  · refine Task.readOnly_bind (t := pure d.reviseContent) trivial fun new => ?_
    cases new <;> trivial

theorem readOnly_editIfPossible (job : Job) (t : Text) :
    (e.editIfPossible s (job.holding t)).ReadOnly := by
  refine Task.readOnly_bind (readOnly_document _) fun made => ?_
  cases made with
  | error cause => trivial
  | ok d => exact Task.readOnly_bind (readOnly_apply_holding job t d) fun _ => trivial

end Masthead.Editor
