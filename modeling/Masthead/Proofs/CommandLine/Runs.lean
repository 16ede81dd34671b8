import Masthead.Proofs.Editor.Outcome
import Masthead.Proofs.Editor.Workers
import Masthead.Proofs.Report.Tally

/-!
# Runs and what they record

A dry run edits the texts of those files that can be read, and looks for the reasons of missing results
behind that. A run that edits the files has the results of its batch. Either way the operations of the
batch may be done in any order.
-/
namespace Masthead.CommandLine
open FileSystem Editor Report Run

def saving (saveTo : Option Path) (diffs : List Text) : Task (List Text × Except RunError Unit) :=
  match saveTo with
  | some path => saveDiffs path diffs
  | none => pure (diffs, .ok ())

/-- A dry run to its end, with all that it records. The operations of the batch are done in any order,
and so is the search for the reasons of missing results. -/
inductive Checked (p : Plan) (s : Header.Surroundings) (saveTo : Option Path) (fs : FileSystem)
    (files : List Path) : List (Except Failure Edit) → Summary → FileSystem → Prop
  | finished {jobs : List (Except Failure Job)} {order : List Job}
      {outcomes : List (Option (Except Failure Edit))} {others : List Failure} {tried : List Text}
      {afterReading afterBatch afterSaving fs' : FileSystem}
      (read : (readJobs p files).run fs = (jobs, afterReading))
      (batch : Task.Interleaved ((readable jobs).map (p.editor.editIfPossible s)) afterReading
        outcomes afterBatch)
      (saved : (saving saveTo (diffsOf (readable jobs) (outcomes.filterMap id))).run afterBatch =
        ((tried, .ok ()), afterSaving))
      (reordered : order.Perm (readable jobs))
      (recovered : (leftOut p s ((outcomes.filterMap id).map pathOfResult) order).run afterSaving =
        (others, fs')) :
      Checked p s saveTo fs files
        ((unreadable jobs).map .error ++ outcomes.filterMap id ++ others.map .error)
        (summaryOfTexts (unreadable jobs) (outcomes.filterMap id) others) fs'

/-- A batch of files to its end, with its results. The operations are done in any order. -/
inductive Edited (p : Plan) (s : Header.Surroundings) (fs : FileSystem) (files : List Path) :
    List (Except Failure Edit) → FileBatch → FileSystem → Prop
  | finished {results : List (Except Failure Edit)} {b : FileBatch} {fs' : FileSystem}
      (batch : Task.Interleaved (files.map fun path => p.editor.edit s (p.job path .onDisk)) fs
        results fs')
      (processed : b.processed = results.length)
      (changed : b.changed = changes results)
      (failures : b.failures = Editor.failures results) :
      Edited p s fs files results b fs'

variable {p : Plan} {s : Header.Surroundings} {fs : FileSystem} {files : List Path} {path : Path}

theorem exists_checked (p : Plan) (s : Header.Surroundings) (fs : FileSystem) (files : List Path) :
    ∃ recorded summary fs', Checked p s none fs files recorded summary fs' := by
  obtain ⟨outcomes, afterBatch, hbatch⟩ := Task.exists_interleaved
    ((readable ((readJobs p files).run fs).1).map (p.editor.editIfPossible s))
    ((readJobs p files).run fs).2
  exact ⟨_, _, _, .finished rfl hbatch rfl (.refl _) rfl⟩

/-- Results in any order in which the edits come to their ends, and what the batch says of them. -/
theorem exists_edited_of_interleaved {results : List (Except Failure Edit)} {fs' : FileSystem}
    (h : Task.Interleaved (files.map fun path => p.editor.edit s (p.job path .onDisk)) fs results fs') :
    ∃ b, Edited p s fs files results b fs' :=
  ⟨⟨results.length, changes results, Editor.failures results, [], 0⟩, .finished h rfl rfl rfl⟩

theorem exists_edited (p : Plan) (s : Header.Surroundings) (fs : FileSystem) (files : List Path) :
    ∃ results b fs', Edited p s fs files results b fs' := by
  obtain ⟨results, fs', hbatch⟩ := Task.exists_interleaved
    (files.map fun path => p.editor.edit s (p.job path .onDisk)) fs
  obtain ⟨b, hedited⟩ := exists_edited_of_interleaved hbatch
  exact ⟨results, b, fs', hedited⟩

theorem Edited.summary_eq {results : List (Except Failure Edit)} {b : FileBatch} {fs' : FileSystem}
    (h : Edited p s fs files results b fs') : summaryOfFiles b = tally results := by
  cases h with
  | finished batch processed changed failures =>
    exact summaryOfFiles_eq_tally processed changed failures

/-! ## Results and their files -/

theorem pathOfResult_applyRule (job : Job) (content : Option Text) (rule : Header.Rule) (t : Text) :
    pathOfResult (applyRule job content rule t) = job.path := by
  unfold applyRule
  split
  · rfl
  · cases rule.revise t <;> rfl

theorem yields_document {e : Editor} {job : Job} : (e.document s job).Yields fun made =>
    ∀ cause, made = .error cause → cause.path = job.path := by
  rw [document_eq]
  refine (Task.Yields.of_forall (fun _ => trivial) _).bind fun missing _ => ?_
  cases missing with
  | true =>
    rintro cause ⟨⟩
    rfl
  | false =>
    rw [if_neg Bool.false_ne_true]
    refine (Task.Yields.of_forall (fun _ => trivial) _).bind fun born _ => ?_
    unfold documentOf
    cases e.ruleFor s job born with
    | error cause =>
      rintro _ ⟨⟩
      rfl
    | ok rule => rintro _ ⟨⟩

theorem yields_apply {job : Job} (d : Header.Document) :
    (apply job d).Yields fun result => pathOfResult result = job.path := by
  unfold apply
  split
  · rfl
  · cases job.source
    all_goals
      refine (Task.Yields.of_forall (fun _ => trivial) _).bind fun new _ => ?_
      cases new with
      | error cause => cases cause <;> rfl
      | ok new => rfl

theorem yields_edit (e : Editor) (s : Header.Surroundings) (job : Job) :
    (e.edit s job).Yields fun result => pathOfResult result = job.path := by
  refine yields_document.bind fun made hmade => ?_
  cases made with
  | error cause => exact hmade cause rfl
  | ok d => exact yields_apply d

theorem Edited.once {results : List (Except Failure Edit)} {b : FileBatch} {fs' : FileSystem}
    (h : Edited p s fs files results b fs') : (results.map pathOfResult).Perm files := by
  cases h with
  | finished batch processed changed failures =>
    let keyed := files.map fun path => (path, p.editor.edit s (p.job path .onDisk))
    have htasks : keyed.map Prod.snd = files.map fun path => p.editor.edit s (p.job path .onDisk) :=
      List.map_map ..
    have hfiles : keyed.map Prod.fst = files := by
      rw [List.map_map]
      exact List.map_id files
    rw [← htasks] at batch
    have hperm : (results.map pathOfResult).Perm (keyed.map Prod.fst) :=
      batch.of_yields fun k hk => by
        obtain ⟨path, -, rfl⟩ := List.mem_map.mp hk
        exact yields_edit p.editor s (p.job path .onDisk)
    rwa [hfiles] at hperm

theorem Edited.results_perm {results : List (Except Failure Edit)} {b : FileBatch} {fs' : FileSystem}
    (h : Edited p s fs files results b fs') (hfiles : Header.Separate fs files) :
    results.Perm (files.map fun q => ((p.editor.edit s (p.job q .onDisk)).run fs).1) ∧
      ∀ q ∈ files, AgreeOn (Header.reach fs q)
        ((p.editor.edit s (p.job q .onDisk)).run fs).2 fs' := by
  cases h with
  | finished batch processed changed failures =>
    obtain ⟨hresults, hsame, -⟩ :=
      batch.of_confined (fun _ _ => confined_edit rfl) hfiles.pairwise_reach
    exact ⟨hresults, hsame⟩

/-! ## The jobs of a dry run -/

def textOf (fs : FileSystem) (path : Path) : Text := (fs.readText path).toOption.getD []

theorem textOf_of_ok {t : Text} (h : fs.readText path = .ok t) : textOf fs path = t := by
  rw [textOf, h]
  rfl

/-- The file can be read. -/
def isReadable (fs : FileSystem) (path : Path) : Bool := (fs.readText path).isOk

theorem isReadable_of_ok {t : Text} (h : fs.readText path = .ok t) : isReadable fs path = true := by
  rw [isReadable, h]
  rfl

theorem isReadable_of_error {cause : IoError} (h : fs.readText path = .error cause) :
    isReadable fs path = false := by
  rw [isReadable, h]
  rfl

theorem readText_of_isReadable (h : isReadable fs path) :
    fs.readText path = .ok (textOf fs path) := by
  cases hread : fs.readText path with
  | error cause => simp [isReadable_of_error hread] at h
  | ok t => rw [textOf_of_ok hread]

def textJob (p : Plan) (fs : FileSystem) (path : Path) : Job :=
  (p.job path .onDisk).holding (textOf fs path)

/-- The job for the text of a file, or why the file cannot be read. -/
def readJob (p : Plan) (fs : FileSystem) (path : Path) : Except Failure Job :=
  match fs.readText path with
  | .ok t => .ok (p.job path (.held t))
  | .error cause => .error (readFailure path cause)

theorem readJob_of_ok {t : Text} (h : fs.readText path = .ok t) :
    readJob p fs path = .ok (textJob p fs path) := by
  rw [readJob, h, textJob, textOf_of_ok h]
  rfl

theorem readJob_of_error {cause : IoError} (h : fs.readText path = .error cause) :
    readJob p fs path = .error (readFailure path cause) := by
  rw [readJob, h]

theorem run_readJobs (p : Plan) (fs : FileSystem) (files : List Path) :
    (readJobs p files).run fs = (files.map (readJob p fs), fs) := by
  induction files with
  | nil => rfl
  | cons path files ih =>
    unfold readJobs
    rw [Task.run_bind, Task.run_read, List.map_cons, readJob]
    dsimp only
    rw [Task.run_bind, ih]
    rfl

theorem readable_readJobs (files : List Path) : readable (files.map (readJob p fs)) =
    (files.filter (isReadable fs)).map (textJob p fs) := by
  induction files with
  | nil => rfl
  | cons path files ih =>
    rw [List.map_cons]
    cases hread : fs.readText path with
    | error cause =>
      rw [readJob_of_error hread, List.filter_cons_of_neg (by simp [isReadable_of_error hread])]
      exact ih
    | ok t =>
      rw [readJob_of_ok hread, List.filter_cons_of_pos (isReadable_of_ok hread)]
      exact congrArg _ ih

/-! ## What becomes of one file -/

section File

variable (p : Plan) (s : Header.Surroundings) (fs : FileSystem) (path : Path)

/-- What the batch of a dry run says of a file, if a document can be made of it. -/
def foreseen? : Option (Except Failure Edit) :=
  match p.editor.ruleFor s (p.job path .onDisk) (fs.birthTime? path) with
  | .error _ => none
  | .ok rule =>
    some (applyRule (p.job path .onDisk) (some (textOf fs path)) rule (textOf fs path))

/-- The failure of a file of which no document can be made. -/
def recovered? : Option Failure :=
  match p.editor.ruleFor s (p.job path .onDisk) (fs.birthTime? path) with
  | .error cause => some (CreationError.failure ⟨path, cause⟩ none)
  | .ok _ => none

/-- What a dry run records of a file. -/
def recordOf : Except Failure Edit :=
  match fs.readText path with
  | .error cause => .error (readFailure path cause)
  | .ok t =>
    match p.editor.ruleFor s (p.job path .onDisk) (fs.birthTime? path) with
    | .error cause => .error (CreationError.failure ⟨path, cause⟩ none)
    | .ok rule => applyRule (p.job path .onDisk) (some t) rule t

variable {p s fs path}

theorem recordOf_of_error {cause : IoError} (h : fs.readText path = .error cause) :
    recordOf p s fs path = .error (readFailure path cause) := by
  rw [recordOf, h]

/-- Of a file that can be read, either the batch has a result or the search behind it has one. -/
theorem recordOf_of_readable (h : isReadable fs path) :
    foreseen? p s fs path = some (recordOf p s fs path) ∧
        (recovered? p s fs path).map Except.error = (none : Option (Except Failure Edit)) ∨
      foreseen? p s fs path = none ∧
        (recovered? p s fs path).map Except.error = some (recordOf p s fs path) := by
  unfold foreseen? recovered? recordOf
  rw [readText_of_isReadable h]
  cases p.editor.ruleFor s (p.job path .onDisk) (fs.birthTime? path) with
  | error cause => exact .inr ⟨rfl, rfl⟩
  | ok rule => exact .inl ⟨rfl, rfl⟩

theorem path_of_recordOf (p : Plan) (s : Header.Surroundings) (fs : FileSystem) (path : Path) :
    pathOfResult (recordOf p s fs path) = path := by
  unfold recordOf
  cases fs.readText path with
  | error cause => rfl
  | ok t =>
    cases p.editor.ruleFor s (p.job path .onDisk) (fs.birthTime? path) with
    | error cause => rfl
    | ok rule => exact pathOfResult_applyRule _ _ _ _

theorem of_foreseen {result : Except Failure Edit} (h : foreseen? p s fs path = some result) :
    pathOfResult result = path ∧ recovered? p s fs path = none := by
  unfold foreseen? at h
  unfold recovered?
  cases hrule : p.editor.ruleFor s (p.job path .onDisk) (fs.birthTime? path) with
  | error cause => simp [hrule] at h
  | ok rule =>
    rw [hrule] at h
    obtain rfl := Option.some.inj h
    exact ⟨pathOfResult_applyRule _ _ _ _, rfl⟩

end File

theorem ruleFor_error_iff {job : Job} (born born' : Option Moment) {cause : CreationCause} :
    p.editor.ruleFor s job born = .error cause ↔ p.editor.ruleFor s job born' = .error cause := by
  unfold ruleFor
  cases p.editor.resolve job with
  | error cause => rfl
  | ok found =>
    obtain ⟨language, header⟩ := found
    simp only [Header.Rule.ofLanguage, bind, Except.bind]
    cases language.skipPattern? <;> simp [Except.mapError]

theorem recovered?_congr (fs fs' : FileSystem) (path : Path) :
    recovered? p s fs' path = recovered? p s fs path := by
  unfold recovered?
  cases h : p.editor.ruleFor s (p.job path .onDisk) (fs.birthTime? path) with
  | error cause => rw [(ruleFor_error_iff _ _).mp h]
  | ok rule =>
    cases h' : p.editor.ruleFor s (p.job path .onDisk) (fs'.birthTime? path) with
    | error cause => simp [(ruleFor_error_iff _ (fs.birthTime? path)).mp h'] at h
    | ok rule' => rfl

/-! ## What a dry run records -/

theorem unreadable_readJobs (s : Header.Surroundings) (files : List Path) :
    (unreadable (files.map (readJob p fs))).map .error =
      (files.filter (!isReadable fs ·)).map (recordOf p s fs) := by
  induction files with
  | nil => rfl
  | cons path files ih =>
    rw [List.map_cons]
    cases hread : fs.readText path with
    | error cause =>
      rw [readJob_of_error hread, List.filter_cons_of_pos (by simp [isReadable_of_error hread]),
        List.map_cons, recordOf_of_error hread]
      exact congrArg _ ih
    | ok t =>
      rw [readJob_of_ok hread, List.filter_cons_of_neg (by simp [isReadable_of_ok hread])]
      exact ih

theorem perm_foreseen {outcomes : List (Option (Except Failure Edit))} {fs' : FileSystem}
    (batch : Task.Interleaved ((files.map (textJob p fs)).map (p.editor.editIfPossible s)) fs
      outcomes fs') :
    fs' = fs ∧ (outcomes.filterMap id).Perm (files.filterMap (foreseen? p s fs)) := by
  rw [List.map_map] at batch
  have hread : ∀ task ∈ files.map (p.editor.editIfPossible s ∘ textJob p fs), task.ReadOnly := by
    intro task htask
    obtain ⟨path, -, rfl⟩ := List.mem_map.mp htask
    exact readOnly_editIfPossible (p.job path .onDisk) (textOf fs path)
  obtain ⟨hfs, houtcomes⟩ := batch.of_readOnly hread
  have halone : (files.map (p.editor.editIfPossible s ∘ textJob p fs)).map (fun t => (t.run fs).1) =
      files.map (foreseen? p s fs) := by
    rw [List.map_map]
    exact List.map_congr_left fun path _ => congrArg Prod.fst (run_editIfPossible (textOf fs path))
  rw [halone] at houtcomes
  have hresults := houtcomes.filterMap id
  rw [List.filterMap_map] at hresults
  exact ⟨hfs, hresults⟩

/-- The search behind the batch finds the failures of those files of which no document can be made,
if it passes over no such file. -/
theorem run_leftOut {seen : List Path} (hseen : ∀ path ∈ seen, recovered? p s fs path = none)
    {jobs : List Job} (hjobs : ∀ job ∈ jobs, ∃ t, job = p.job job.path (.held t)) :
    (leftOut p s seen jobs).run fs = ((jobs.map Job.path).filterMap (recovered? p s fs), fs) := by
  induction jobs with
  | nil => rfl
  | cons job jobs ih =>
    have hothers := ih fun other hother => hjobs other (List.mem_cons_of_mem _ hother)
    obtain ⟨t, hjob⟩ := hjobs job List.mem_cons_self
    have hpresent : job.isMissing.run fs = (false, fs) := by
      rw [hjob]
      rfl
    have hrule : p.editor.ruleFor s job = p.editor.ruleFor s (p.job job.path .onDisk) := by
      rw [hjob]
      rfl
    rw [List.map_cons]
    unfold leftOut
    by_cases hpath : job.path ∈ seen
    · rw [if_pos hpath, hothers, List.filterMap_cons_none (hseen job.path hpath)]
    · rw [if_neg hpath, Task.run_bind, run_document hpresent, hrule]
      cases hmade : p.editor.ruleFor s (p.job job.path .onDisk) (fs.birthTime? job.path) with
      | error cause =>
        have hrecovered : recovered? p s fs job.path =
            some (CreationError.failure ⟨job.path, cause⟩ none) := by rw [recovered?, hmade]
        rw [List.filterMap_cons_some hrecovered]
        dsimp only
        rw [Task.run_bind, hothers]
        rfl
      | ok rule =>
        have hrecovered : recovered? p s fs job.path = none := by rw [recovered?, hmade]
        rw [List.filterMap_cons_none hrecovered]
        exact hothers

theorem exists_leftOut {results : List (Except Failure Edit)} {order : List Job}
    (hresults : results.Perm (files.filterMap (foreseen? p s fs)))
    (hjobs : order.Perm (files.map (textJob p fs))) (after : FileSystem) :
    ∃ others, (leftOut p s (results.map pathOfResult) order).run after = (others, after) ∧
      others.Perm (files.filterMap (recovered? p s fs)) := by
  have hseen : ∀ path ∈ results.map pathOfResult, recovered? p s after path = none := by
    intro path hpath
    obtain ⟨result, hresult, rfl⟩ := List.mem_map.mp hpath
    obtain ⟨path, -, hforeseen⟩ := List.mem_filterMap.mp (hresults.mem_iff.mp hresult)
    obtain ⟨hsame, hnone⟩ := of_foreseen hforeseen
    rw [hsame, recovered?_congr fs, hnone]
  have horder : ∀ job ∈ order, ∃ t, job = p.job job.path (.held t) := by
    intro job hjob
    obtain ⟨path, -, rfl⟩ := List.mem_map.mp (hjobs.mem_iff.mp hjob)
    exact ⟨_, rfl⟩
  have hpaths : (files.map (textJob p fs)).map Job.path = files := by
    rw [List.map_map]
    exact List.map_id files
  refine ⟨_, run_leftOut hseen horder, ?_⟩
  rw [funext (recovered?_congr fs after)]
  exact (hpaths ▸ hjobs.map Job.path).filterMap _

theorem perm_of_either {α β : Type} {f g : α → Option β} {k : α → β} {l : List α}
    (h : ∀ a ∈ l, f a = some (k a) ∧ g a = none ∨ f a = none ∧ g a = some (k a)) :
    (l.filterMap f ++ l.filterMap g).Perm (l.map k) := by
  induction l with
  | nil => exact .nil
  | cons a l ih =>
    have hperm := ih fun b hb => h b (List.mem_cons_of_mem _ hb)
    rcases h a List.mem_cons_self with ⟨hf, hg⟩ | ⟨hf, hg⟩
    · rw [List.filterMap_cons_some hf, List.filterMap_cons_none hg]
      exact hperm.cons (k a)
    · rw [List.filterMap_cons_none hf, List.filterMap_cons_some hg]
      exact List.perm_middle.trans (hperm.cons (k a))

/-- A dry run records the same of every file, in whatever order its operations are done, and changes
nothing unless it is to save diffs. -/
theorem Checked.recorded_perm {saveTo : Option Path} {recorded : List (Except Failure Edit)}
    {summary : Summary} {fs' : FileSystem} (h : Checked p s saveTo fs files recorded summary fs') :
    recorded.Perm (files.map (recordOf p s fs)) ∧ summary = tally recorded ∧
      (saveTo = none → fs' = fs) := by
  cases h with
  | @finished jobs order outcomes others tried afterReading afterBatch afterSaving fs' read batch saved
      reordered recovered =>
    obtain ⟨rfl, rfl⟩ := Prod.mk.inj ((run_readJobs p fs files).symm.trans read)
    rw [readable_readJobs] at batch reordered
    obtain ⟨hsame, hresults⟩ := perm_foreseen batch
    obtain rfl := hsame.symm
    obtain ⟨found, hfound, hothers⟩ := exists_leftOut hresults reordered afterSaving
    obtain ⟨rfl, rfl⟩ := Prod.mk.inj (hfound.symm.trans recovered)
    refine ⟨?_, summaryOfTexts_eq_tally .., ?_⟩
    · have heither : ((files.filter (isReadable fs)).filterMap (foreseen? p s fs) ++
          ((files.filter (isReadable fs)).filterMap (recovered? p s fs)).map Except.error).Perm
            ((files.filter (isReadable fs)).map (recordOf p s fs)) := by
        rw [List.map_filterMap]
        exact perm_of_either fun path hpath => recordOf_of_readable (List.mem_filter.mp hpath).2
      have hread := (hresults.append (hothers.map Except.error)).trans heither
      have hall := (List.filter_append_perm (isReadable fs) files).map (recordOf p s fs)
      rw [List.map_append] at hall
      rw [unreadable_readJobs s, List.append_assoc]
      exact ((List.Perm.append_left _ hread).trans List.perm_append_comm).trans hall
    · rintro rfl
      exact (Prod.mk.inj saved).2.symm

/-! ## The runs of the program -/

/-- What a dry run does behind its batch: the diffs are saved before the other files are looked
through. -/
def conclude (p : Plan) (s : Header.Surroundings) (saveTo : Option Path)
    (jobs : List (Except Failure Job)) (b : TextBatch) : Task Treatment := do
  let (tried, saved) ← saving saveTo (diffsOf (readable jobs) b.results)
  match saved with
  | .error cause => return ⟨b.events, tried, .stopped cause⟩
  | .ok _ =>
    let others ← leftOut p s (b.results.map pathOfResult) (readable jobs)
    return ⟨b.events, tried, .finished (summaryOfTexts (unreadable jobs) b.results others)⟩

theorem check_eq (p : Plan) (s : Header.Surroundings) (saveTo : Option Path) (files : List Path) :
    Run.check p s false saveTo files = readJobs p files >>= fun jobs =>
      p.editor.editTexts s false (readable jobs) >>= fun
        | .error cause => pure ⟨[], [], .interrupted cause⟩
        | .ok b => conclude p s saveTo jobs b := by
  unfold Run.check conclude
  cases saveTo <;> rfl

section Gate

variable (hgate : max p.editor.parallelism 1 ≤ Gate.maxPermits)
include hgate

/-- With a gate for its batch, a dry run of the program ends in a summary unless it cannot save a
diff. -/
theorem ending_check (saveTo : Option Path) (fs : FileSystem) (files : List Path) :
    (saveTo.isSome ∧
      ∃ cause, ((Run.check p s false saveTo files).run fs).1.ending = .stopped cause) ∨
    ∃ recorded summary,
      ((Run.check p s false saveTo files).run fs).1.ending = .finished summary ∧
      Checked p s saveTo fs files recorded summary ((Run.check p s false saveTo files).run fs).2 := by
  obtain ⟨b, outcomes, afterBatch, hrun, hbatch, hresults⟩ := exists_run_editTexts hgate s
    (readable ((readJobs p files).run fs).1) ((readJobs p files).run fs).2
  obtain ⟨⟨tried, saved⟩, afterSaving, hsaved⟩ : ∃ outcome afterSaving,
      (saving saveTo (diffsOf (readable ((readJobs p files).run fs).1)
        (outcomes.filterMap id))).run afterBatch = (outcome, afterSaving) := ⟨_, _, rfl⟩
  rw [check_eq, Task.run_bind, Task.run_bind, hrun]
  dsimp only [conclude]
  rw [Task.run_bind, hresults, hsaved]
  cases saved with
  | error cause =>
    refine .inl ⟨?_, cause, rfl⟩
    cases saveTo with
    | none => cases congrArg Prod.snd (congrArg Prod.fst hsaved)
    | some path => rfl
  | ok =>
    dsimp only
    rw [Task.run_bind]
    exact .inr ⟨_, _, rfl, .finished rfl hbatch hsaved (.refl _) rfl⟩

theorem ending_modify (fs : FileSystem) (files : List Path) : ∃ results b,
    ((Run.modify p s false files).run fs).1.ending = .finished (summaryOfFiles b) ∧
      Edited p s fs files results b ((Run.modify p s false files).run fs).2 := by
  obtain ⟨b, results, afterBatch, hrun, hbatch, hprocessed, hchanged, hfailures⟩ :=
    exists_run_editFiles hgate s (files.map (p.job · .onDisk)) fs
  rw [List.map_map] at hbatch
  unfold Run.modify
  rw [Task.run_bind, hrun]
  exact ⟨results, b, rfl, .finished hbatch hprocessed hchanged hfailures⟩

end Gate

theorem checked_of_run {saveTo : Option Path} {t : Treatment} {summary : Summary} {fs' : FileSystem}
    (h : (Run.check p s false saveTo files).run fs = (t, fs')) (hended : t.ending = .finished summary) :
    ∃ recorded, Checked p s saveTo fs files recorded summary fs' := by
  by_cases hgate : max p.editor.parallelism 1 ≤ Gate.maxPermits
  · obtain ⟨-, cause, hstopped⟩ | ⟨recorded, summary', hfinished, hchecked⟩ :=
      ending_check (s := s) hgate saveTo fs files
    · rw [h, hended] at hstopped
      cases hstopped
    · rw [h, hended] at hfinished
      cases hfinished
      rw [h] at hchecked
      exact ⟨recorded, hchecked⟩
  · rw [check_eq, Task.run_bind, Task.run_bind, run_editTexts_of_wide hgate] at h
    obtain ⟨rfl, -⟩ := Prod.mk.inj h
    cases hended

theorem edited_of_run {t : Treatment} {summary : Summary} {fs' : FileSystem}
    (h : (Run.modify p s false files).run fs = (t, fs')) (hended : t.ending = .finished summary) :
    ∃ results b, Edited p s fs files results b fs' ∧ summary = summaryOfFiles b := by
  by_cases hgate : max p.editor.parallelism 1 ≤ Gate.maxPermits
  · obtain ⟨results, b, hfinished, hedited⟩ := ending_modify (s := s) hgate fs files
    rw [h, hended] at hfinished
    cases hfinished
    rw [h] at hedited
    exact ⟨results, b, hedited, rfl⟩
  · unfold Run.modify at h
    rw [Task.run_bind, run_editFiles_of_wide hgate] at h
    obtain ⟨rfl, -⟩ := Prod.mk.inj h
    cases hended

end Masthead.CommandLine
