import Masthead.Proofs.Editor.InPlace
import Masthead.Proofs.Editor.Schedule

/-!
# Batches as single edits

In whatever order the steps of its workers are done, a batch does to every file or text what editing
it alone does, and reports it once.
-/
namespace Masthead.Editor
open FileSystem

variable {α : Type} {fs fs' : FileSystem}

/-- A batch for which there is a gate at its end, with the results beside their workers. The steps
were done in some order. -/
inductive Completed (limit : ℕ) (workers : List (Worker α)) (fs : FileSystem) :
    List (Worker α × α) → Shared → Prop
  | ended {gate : Gate} {results : List (Worker α × α)} {shared : Shared}
      (opened : Gate.ofLimit? limit = some gate)
      (run : Batch.Reaches workers.length (.start gate workers fs) ⟨[], shared, results⟩) :
      Completed limit workers fs results shared

/-- However far a batch has got, it is at its end or it can go on, and it does not go on for ever. -/
structure AlwaysEnds (gate : Gate) (workers : List (Worker α)) (fs : FileSystem) : Prop where
  goes_on : ∀ {b}, Batch.Reaches workers.length (.start gate workers fs) b → b.workers ≠ [] →
    ∃ b', Batch.Step workers.length b b'
  stops : Acc (fun b' b : Batch α => Batch.Step workers.length b b') (.start gate workers fs)

/-- The events count the jobs from one on, and there is one for every job. -/
structure Announced (jobs : List Job) (report : Job → Option Text) (events : List Progress) :
    Prop where
  numbers : events.map Progress.processed = List.range' 1 jobs.length
  totals : ∀ event ∈ events, event.total = jobs.length
  reports : (events.map fun event => (event.path, event.content)).Perm
    (jobs.map fun job => (job.path, report job))

section Gate

variable {limit : ℕ} {gate : Gate} (hgate : Gate.ofLimit? limit = some gate)
include hgate

theorem ofLimit?_eq : gate = ⟨max limit 1, 0, 0, 0⟩ := by
  unfold Gate.ofLimit? at hgate
  split at hgate
  · exact (Option.some.inj hgate).symm
  · cases hgate

theorem balanced_of_ofLimit? (workers : List (Worker α)) (fs : FileSystem) :
    (Batch.start gate workers fs).Balanced (max limit 1) := by
  obtain rfl := ofLimit?_eq hgate
  exact Batch.balanced_start ⟨max limit 1, 0, 0, 0⟩ workers fs rfl

theorem alwaysEnds (workers : List (Worker α)) (fs : FileSystem) : AlwaysEnds gate workers fs where
  goes_on h := (h.sound (balanced_of_ofLimit? hgate workers fs)
    (Batch.recorded_start gate workers fs workers.length)).1.exists_step (by omega)
  stops := (Batch.wellFounded_step workers.length).apply _

theorem exists_completed (workers : List (Worker α)) (fs : FileSystem) :
    ∃ results shared, Completed limit workers fs results shared := by
  obtain ⟨⟨workers', shared, results⟩, hreaches, rfl⟩ :=
    (balanced_of_ofLimit? hgate workers fs).exists_end (by omega)
  exact ⟨results, shared, .ended hgate hreaches⟩

theorem exists_completed_of_interleaved {workers : List (Worker α)} {results : List (Worker α × α)}
    (hall : workers.length ≤ limit)
    (h : Task.Interleaved (workers.map fun w => (w, ·) <$> w.task) fs results fs') :
    ∃ shared, Completed limit workers fs results shared ∧ shared.fs = fs' := by
  have hfree : gate.held + workers.length ≤ gate.limit := by
    rw [ofLimit?_eq hgate]
    dsimp only
    omega
  obtain ⟨shared, hfs, hrun⟩ := Batch.reaches_of_interleaved hfree h
  exact ⟨shared, .ended hgate hrun, hfs⟩

end Gate

namespace Completed

variable {limit : ℕ} {workers : List (Worker α)} {results : List (Worker α × α)} {shared : Shared}
  (h : Completed limit workers fs results shared)
include h

theorem interleaved : Task.Interleaved (workers.map fun w => (w, ·) <$> w.task) fs results shared.fs := by
  cases h with
  | @ended gate results shared opened run =>
    obtain ⟨rest, rfl, hrest⟩ := run.interleaved rfl
    have htasks : (Batch.start gate workers fs).workers.map remaining =
        workers.map fun w => (w, ·) <$> w.task := List.map_map ..
    rw [htasks] at hrest
    exact hrest

theorem recorded : shared.events.map Progress.processed = List.range' 1 results.length ∧
    (∀ event ∈ shared.events, event.total = workers.length) ∧
    (shared.events.map fun event => (event.path, event.content)).Perm
      (results.map fun wa => (wa.1.path, wa.1.report wa.2)) := by
  cases h with
  | @ended gate results shared opened run =>
    obtain ⟨-, hrecorded⟩ := run.sound (balanced_of_ofLimit? opened workers fs)
      (Batch.recorded_start gate workers fs workers.length)
    obtain ⟨hnumbers, hreports⟩ := hrecorded.of_ended rfl
    exact ⟨hnumbers, hrecorded.totals, hreports⟩

theorem announced {jobs : List Job} {worker : Job → Worker α} (hworkers : workers = jobs.map worker)
    (hpath : ∀ job, (worker job).path = job.path)
    (hresults : results.Perm (jobs.map fun job => (worker job, ((worker job).task.run fs).1))) :
    Announced jobs (fun job => (worker job).report ((worker job).task.run fs).1) shared.events := by
  obtain ⟨hnumbers, htotals, hreports⟩ := h.recorded
  have hlength : results.length = jobs.length := by rw [hresults.length_eq, List.length_map]
  refine ⟨hlength ▸ hnumbers, ?_, ?_⟩
  · rwa [hworkers, List.length_map] at htotals
  · have hmapped := hresults.map fun wa => (wa.1.path, wa.1.report wa.2)
    rw [List.map_map] at hmapped
    refine hreports.trans (hmapped.trans ?_)
    simp only [Function.comp_def, hpath]
    exact .refl _

end Completed

/-! ## Batches of texts -/

variable (e : Editor) (s : Header.Surroundings)

/-- What editing a job alone comes to. -/
def alone (fs : FileSystem) (job : Job) : Except Failure Edit := ((e.edit s job).run fs).1

def hasDocument (fs : FileSystem) (job : Job) : Bool := ((e.document s job).run fs).1.isOk

/-- A batch of texts at its end, whatever the order of its steps. -/
def TextsEdited (jobs : List Job) (fs : FileSystem) (b : TextBatch) (fs' : FileSystem) : Prop :=
  ∃ results shared, Completed e.parallelism (jobs.map (e.textWorker s)) fs results shared ∧
    b = ⟨(results.map Prod.snd).filterMap id, shared.events, shared.gate.peak⟩ ∧ fs' = shared.fs

def newText : Except Failure Edit → Option Text
  | .ok edit => some edit.content
  | .error _ => none

/-- A batch of texts does what editing the single texts does. -/
structure TextsPointwise (jobs : List Job) (fs : FileSystem) (b : TextBatch) (fs' : FileSystem) :
    Prop where
  results : b.results.Perm ((jobs.filter (e.hasDocument s fs)).map (e.alone s fs))
  events : Announced jobs (fun job => newText (e.alone s fs job)) b.events
  untouched : fs' = fs

variable {e s} {job : Job} {jobs : List Job}

theorem run_editIfPossible_eq (job : Job) (fs : FileSystem) : ((e.editIfPossible s job).run fs).1 =
    if e.hasDocument s fs job then some (e.alone s fs job) else none := by
  unfold editIfPossible alone edit hasDocument
  rw [Task.run_bind, Task.run_bind]
  obtain ⟨made, after⟩ := (e.document s job).run fs
  cases made with
  | error cause => rfl
  | ok d =>
    dsimp only
    rw [Task.run_bind]
    rfl

theorem newText_of_not (h : e.hasDocument s fs job = false) : newText (e.alone s fs job) = none := by
  unfold hasDocument at h
  unfold alone edit
  rw [Task.run_bind]
  rcases hrun : (e.document s job).run fs with ⟨made, after⟩
  rw [hrun] at h
  cases made with
  | error cause => rfl
  | ok d => cases h

theorem report_textWorker (job : Job) (fs : FileSystem) :
    (e.textWorker s job).report ((e.textWorker s job).task.run fs).1 = newText (e.alone s fs job) := by
  have htask : ((e.textWorker s job).task.run fs).1 = ((e.editIfPossible s job).run fs).1 := rfl
  rw [htask, run_editIfPossible_eq]
  cases h : e.hasDocument s fs job with
  | false => exact (newText_of_not h).symm
  | true =>
    rw [if_pos rfl]
    cases e.alone s fs job <;> rfl

theorem filterMap_ite {ι β : Type} (c : ι → Bool) (f : ι → β) (l : List ι) :
    (l.map fun i => if c i then some (f i) else none).filterMap id = (l.filter c).map f := by
  induction l with
  | nil => rfl
  | cons i l ih =>
    rw [List.map_cons]
    cases h : c i with
    | false =>
      rw [List.filter_cons_of_neg (by simp [h])]
      exact ih
    | true =>
      rw [List.filter_cons_of_pos h]
      exact congrArg (f i :: ·) ih

theorem TextsEdited.pointwise {b : TextBatch} (h : TextsEdited e s jobs fs b fs')
    (hheld : ∀ job ∈ jobs, ∃ t, job.source = .held t) : TextsPointwise e s jobs fs b fs' := by
  obtain ⟨results, shared, hcompleted, rfl, rfl⟩ := h
  have hread : ∀ task ∈ (jobs.map (e.textWorker s)).map fun w => (w, ·) <$> w.task,
      task.ReadOnly := by
    intro task htask
    obtain ⟨w, hw, rfl⟩ := List.mem_map.mp htask
    obtain ⟨⟨path, source, headers, properties, ignore⟩, hjob, rfl⟩ := List.mem_map.mp hw
    obtain ⟨t, rfl⟩ := hheld _ hjob
    exact (readOnly_editIfPossible ⟨path, .onDisk, headers, properties, ignore⟩ t).map _
  obtain ⟨hfs, hperm⟩ := hcompleted.interleaved.of_readOnly hread
  rw [List.map_map, List.map_map] at hperm
  have hresults : results.Perm (jobs.map fun job =>
      (e.textWorker s job, ((e.textWorker s job).task.run fs).1)) := by
    refine hperm.trans ?_
    simp only [Function.comp_def, run_map]
    exact .refl _
  have hannounced := hcompleted.announced rfl (fun _ => rfl) hresults
  simp only [report_textWorker] at hannounced
  refine ⟨?_, hannounced, hfs⟩
  have hedits := (hresults.map Prod.snd).filterMap id
  rw [List.map_map] at hedits
  have halone : jobs.map (Prod.snd ∘ fun job =>
      (e.textWorker s job, ((e.textWorker s job).task.run fs).1)) = jobs.map fun job =>
        if e.hasDocument s fs job then some (e.alone s fs job) else none :=
    List.map_congr_left fun job _ => run_editIfPossible_eq job fs
  rwa [halone, filterMap_ite] at hedits

/-! ## Batches of files -/

variable (e s)

/-- A batch of files at its end, whatever the order of its steps. -/
def FilesEdited (jobs : List Job) (fs : FileSystem) (b : FileBatch) (fs' : FileSystem) : Prop :=
  ∃ results shared, Completed e.parallelism (jobs.map (e.fileWorker s)) fs results shared ∧
    b = { processed := results.length
          changed := changes (results.map Prod.snd)
          failures := failures (results.map Prod.snd)
          events := shared.events
          peak := shared.gate.peak } ∧ fs' = shared.fs

/-- A batch of files does what editing the single files does. Every file and the place of its copy are
in the end as if the file had been edited alone, and the rest is as before. -/
structure FilesPointwise (jobs : List Job) (fs : FileSystem) (b : FileBatch) (fs' : FileSystem) :
    Prop where
  processed : b.processed = jobs.length
  changed : b.changed.Perm (changes (jobs.map (e.alone s fs)))
  failures : b.failures.Perm (failures (jobs.map (e.alone s fs)))
  events : Announced jobs (fun _ => none) b.events
  files : ∀ job ∈ jobs, AgreeOn (Header.reach fs job.path) ((e.edit s job).run fs).2 fs'
  others : ∀ rest, (∀ job ∈ jobs, Disjoint (Header.reach fs job.path) rest) → AgreeOn rest fs fs'

variable {e s}

theorem FilesEdited.pointwise {b : FileBatch} (h : FilesEdited e s jobs fs b fs')
    (hdisk : ∀ job ∈ jobs, job.source = .onDisk) (hfiles : Header.Separate fs (jobs.map Job.path)) :
    FilesPointwise e s jobs fs b fs' := by
  obtain ⟨results, shared, hcompleted, rfl, rfl⟩ := h
  have hinterleaved := hcompleted.interleaved
  have hapart : jobs.Pairwise fun i j =>
      Disjoint (Header.reach fs i.path) (Header.reach fs j.path) :=
    (List.pairwise_map (f := Job.path)).mp hfiles.pairwise_reach
  rw [List.map_map] at hinterleaved
  obtain ⟨hperm, hsame, hothers⟩ := hinterleaved.of_confined
    (fun job hjob => (confined_edit (hdisk job hjob)).map _) hapart
  have hresults : results.Perm (jobs.map fun job => (e.fileWorker s job, e.alone s fs job)) := by
    refine hperm.trans ?_
    simp only [Function.comp_def, run_map]
    exact .refl _
  have hedits := hresults.map Prod.snd
  rw [List.map_map] at hedits
  exact
    { processed := by rw [hresults.length_eq, List.length_map]
      changed := hedits.filterMap _
      failures := hedits.filterMap _
      events := hcompleted.announced rfl (fun _ => rfl) hresults
      files := fun job hjob => by
        have hjob' := hsame job hjob
        rwa [Function.comp_apply, run_map] at hjob'
      others := hothers }

/-- Two batches of the same separate files end in the same file system. -/
theorem FilesPointwise.agree {b b' : FileBatch} {after after' : FileSystem}
    (h : FilesPointwise e s jobs fs b after) (h' : FilesPointwise e s jobs fs b' after') :
    AgreeOn Set.univ after after' := by
  have hempty : ∀ job ∈ jobs, Disjoint (Header.reach fs job.path) ∅ :=
    fun _ _ => Set.disjoint_empty _
  have hrest := (h.others ∅ hempty).symm.trans (h'.others ∅ hempty)
  refine { hrest with node := fun l _ => ?_ }
  by_cases hl : ∃ job ∈ jobs, l ∈ Header.reach fs job.path
  · obtain ⟨job, hjob, hl⟩ := hl
    exact ((h.files job hjob).symm.trans (h'.files job hjob)).node l hl
  · have hdisjoint : ∀ job ∈ jobs, Disjoint (Header.reach fs job.path) {l} :=
      fun job hjob => Set.disjoint_singleton_right.mpr fun hmem => hl ⟨job, hjob, hmem⟩
    exact ((h.others {l} hdisjoint).symm.trans (h'.others {l} hdisjoint)).node l rfl

/-- In whatever order their steps are done, batches come to their end and do what the single edits do.
For files, neither of which is the copy of another one, it does not matter which order that is. -/
theorem batches_pointwise {gate : Gate} (hgate : Gate.ofLimit? e.parallelism = some gate)
    (s : Header.Surroundings) (fs : FileSystem) :
    (∀ jobs : List Job, (∀ job ∈ jobs, ∃ t, job.source = .held t) →
      AlwaysEnds gate (jobs.map (e.textWorker s)) fs ∧ (∃ b fs', TextsEdited e s jobs fs b fs') ∧
      ∀ b fs', TextsEdited e s jobs fs b fs' → TextsPointwise e s jobs fs b fs') ∧
    ∀ jobs : List Job, (∀ job ∈ jobs, job.source = .onDisk) →
      Header.Separate fs (jobs.map Job.path) →
      AlwaysEnds gate (jobs.map (e.fileWorker s)) fs ∧ (∃ b fs', FilesEdited e s jobs fs b fs') ∧
      (∀ b fs', FilesEdited e s jobs fs b fs' → FilesPointwise e s jobs fs b fs') ∧
      ∀ b b' after after', FilesEdited e s jobs fs b after → FilesEdited e s jobs fs b' after' →
        AgreeOn Set.univ after after' := by
  constructor
  · intro jobs hheld
    obtain ⟨results, shared, hcompleted⟩ := exists_completed hgate (jobs.map (e.textWorker s)) fs
    exact ⟨alwaysEnds hgate _ fs, ⟨_, _, results, shared, hcompleted, rfl, rfl⟩,
      fun b fs' h => h.pointwise hheld⟩
  · intro jobs hdisk hfiles
    obtain ⟨results, shared, hcompleted⟩ := exists_completed hgate (jobs.map (e.fileWorker s)) fs
    exact ⟨alwaysEnds hgate _ fs, ⟨_, _, results, shared, hcompleted, rfl, rfl⟩,
      fun b fs' h => h.pointwise hdisk hfiles,
      fun b b' after after' h h' => (h.pointwise hdisk hfiles).agree (h'.pointwise hdisk hfiles)⟩

/-- With a permit for every job, a batch can come to whatever the jobs come to side by side. -/
theorem exists_filesEdited {gate : Gate} (hgate : Gate.ofLimit? e.parallelism = some gate)
    (hall : jobs.length ≤ e.parallelism)
    {results : List (Worker (Except Failure Edit) × Except Failure Edit)}
    (h : Task.Interleaved ((jobs.map (e.fileWorker s)).map fun w => (w, ·) <$> w.task) fs results fs') :
    ∃ b, FilesEdited e s jobs fs b fs' ∧ b.changed = changes (results.map Prod.snd) ∧
      b.failures = failures (results.map Prod.snd) := by
  obtain ⟨shared, hcompleted, hfs⟩ := exists_completed_of_interleaved hgate (by simpa using hall) h
  exact ⟨_, ⟨_, shared, hcompleted, rfl, hfs.symm⟩, rfl, rfl⟩

section Examples

def gonePath : Path := Path.ofText "gone.go".toList

def txtPath : Path := Path.ofText "c.txt".toList

def goCopy : Path := Path.ofText ".a.go.lhm-tmp".toList

/-- A file that is there and one that is not. -/
def goJobs : List Job := [goJob, { goJob with path := gonePath }]

/-- The text of a file, and one in an unknown language. -/
def goTexts : List Job :=
  [goJob.holding "code\n".toList, { goJob with path := txtPath, source := .held "text".toList }]

theorem alone_goText : goEditor.alone ⟨⟨0⟩, none⟩ (oneFile []) (goJob.holding "code\n".toList) =
    .ok ⟨goPath, "// 1970 a.go\ncode\n".toList, .inserted⟩ := by
  have hborn : (oneFile []).birthTime? goJob.path = none := by rfl
  rw [alone, run_edit_holding, hborn, outcome_go]

theorem alone_goTexts : (goTexts.filter (goEditor.hasDocument ⟨⟨0⟩, none⟩ (oneFile []))).map
    (goEditor.alone ⟨⟨0⟩, none⟩ (oneFile [])) =
      [.ok ⟨goPath, "// 1970 a.go\ncode\n".toList, .inserted⟩] := by
  have hfilter : goTexts.filter (goEditor.hasDocument ⟨⟨0⟩, none⟩ (oneFile [])) =
      [goJob.holding "code\n".toList] := by decide
  rw [hfilter, List.map_singleton, alone_goText]

theorem alone_goJobs : goJobs.map (goEditor.alone ⟨⟨0⟩, none⟩ (oneFile [])) =
    [.ok ⟨goPath, "// 1970 a.go\ncode\n".toList, .inserted⟩,
      .error (CreationError.failure ⟨gonePath, .fileNotFound⟩ none)] := by
  have hplace := @inPlace_edit goEditor ⟨⟨0⟩, none⟩ goJob (oneFile []) _ rfl rfl rfl
  have hstore : storeError? (oneFile []) goJob.path
      (.ok ⟨goPath, "// 1970 a.go\ncode\n".toList, .inserted⟩) = none := by decide
  have hfile : goEditor.alone ⟨⟨0⟩, none⟩ (oneFile []) goJob =
      .ok ⟨goPath, "// 1970 a.go\ncode\n".toList, .inserted⟩ := by
    refine ok_of_mapError_eq (hplace.same ?_) alone_goText
    rw [← hstore]
    exact congrArg _ alone_goText
  have hgone : goEditor.alone ⟨⟨0⟩, none⟩ (oneFile []) { goJob with path := gonePath } =
      .error (CreationError.failure ⟨gonePath, .fileNotFound⟩ none) := by
    have hkind : (oneFile []).kind? gonePath ≠ some .file := by decide
    rw [alone, run_edit_of_missing rfl hkind]
  rw [goJobs, List.map_cons, List.map_singleton, hfile, hgone]

/-- The batches succeed where the single edits do. -/
theorem batches_pointwise_go :
    Gate.ofLimit? goEditor.parallelism = some ⟨2, 0, 0, 0⟩ ∧
    (∃ b fs', TextsEdited goEditor ⟨⟨0⟩, none⟩ goTexts (oneFile []) b fs' ∧
      b.results = [.ok ⟨goPath, "// 1970 a.go\ncode\n".toList, .inserted⟩] ∧
      b.events.map Progress.processed = [1, 2]) ∧
    ∃ b fs', FilesEdited goEditor ⟨⟨0⟩, none⟩ goJobs (oneFile []) b fs' ∧
      b.processed = 2 ∧ b.changed = [(goPath, .inserted)] ∧
      b.failures.map Failure.kind = [.fileNotFound] := by
  have hgate : Gate.ofLimit? goEditor.parallelism = some ⟨2, 0, 0, 0⟩ := by rfl
  have hfiles : Header.Separate (oneFile []) (goJobs.map Job.path) :=
    ⟨by decide +kernel, by decide +kernel, by decide +kernel⟩
  obtain ⟨htexts, hbatches⟩ := batches_pointwise hgate ⟨⟨0⟩, none⟩ (oneFile [])
  obtain ⟨-, ⟨b, fs', hedited⟩, hpointwise⟩ := htexts goTexts (by simp [goTexts, Job.holding])
  obtain ⟨-, ⟨c, fs'', hchanged⟩, hfilewise, -⟩ := hbatches goJobs (by simp [goJobs, goJob]) hfiles
  have hb := hpointwise b fs' hedited
  have hc := hfilewise c fs'' hchanged
  have hresults := hb.results
  have hchanges := hc.changed
  have hfailures := hc.failures
  rw [alone_goTexts] at hresults
  rw [alone_goJobs] at hchanges hfailures
  exact ⟨hgate, ⟨b, fs', hedited, List.perm_singleton.mp hresults, hb.events.numbers⟩, c, fs'',
    hchanged, hc.processed, List.perm_singleton.mp hchanges,
    congrArg (List.map Failure.kind) (List.perm_singleton.mp hfailures)⟩

/-- Two names that are no texts and are shown as the same one. -/
def strangeNames : List Name := [255 :: Text.encode ".go".toList, 254 :: Text.encode ".go".toList]

def strangeFiles : FileSystem where
  entries := [([255 :: Text.encode ".go".toList], .file { content := .text "code\n".toList }),
    ([254 :: Text.encode ".go".toList], .file { content := .text "text\n".toList })]
  workingDirectory := []

/-- A file and another one in the place of its copy. -/
def siblings : FileSystem where
  entries := [([Text.encode "a.go".toList], .file { content := .text "code\n".toList }),
    ([Text.encode ".a.go.lhm-tmp".toList], .file { content := .text "text\n".toList })]
  workingDirectory := []

def siblingLanguage : Language :=
  (Language.ofExtensions [".go".toList, ".lhm-tmp".toList]).withLineComment "//".toList

def siblingEditor : Editor := ⟨[siblingLanguage], [], 1⟩

def siblingJob (path : Path) : Job where
  path := path
  source := .onDisk
  headers := some ⟨[(".go".toList, ["// H".toList]), (".lhm-tmp".toList, ["// H".toList])]⟩
  properties := []
  ignoreNonCommentText := false

def siblingWorker (path : Path) : Worker (Except Failure Edit) :=
  siblingEditor.fileWorker ⟨⟨0⟩, none⟩ (siblingJob path)

theorem task_siblingWorker (path : Path) :
    (siblingWorker path).task = siblingEditor.edit ⟨⟨0⟩, none⟩ (siblingJob path) := rfl

theorem ruleFor_sibling : ∀ path ∈ [goPath, goCopy],
    siblingEditor.ruleFor ⟨⟨0⟩, none⟩ (siblingJob path) none =
      .ok ⟨siblingLanguage.grammar, none, some ["// H".toList], []⟩ := by decide +kernel

theorem outcome_sibling : siblingEditor.outcome ⟨⟨0⟩, none⟩ (siblingJob goPath) none none
    "code\n".toList = .ok ⟨goPath, "// H\ncode\n".toList, .inserted⟩ := by
  rw [outcome, ruleFor_sibling _ List.mem_cons_self]
  cbv

theorem outcome_sibling_copy : siblingEditor.outcome ⟨⟨0⟩, none⟩
    (siblingJob goCopy) none none "text\n".toList =
      .ok ⟨goCopy, "// H\ntext\n".toList, .inserted⟩ := by
  rw [outcome, ruleFor_sibling _ (List.mem_cons_of_mem _ List.mem_cons_self)]
  cbv

/-- What is left of the two files once the first one was edited. -/
def onlySibling : FileSystem where
  entries := [([Text.encode "a.go".toList], .file { content := .text "// H\ncode\n".toList })]
  workingDirectory := []

theorem run_edit_sibling : (siblingEditor.edit ⟨⟨0⟩, none⟩ (siblingJob goPath)).run siblings =
    (.ok ⟨goPath, "// H\ncode\n".toList, .inserted⟩, onlySibling) := by
  have hborn : siblings.birthTime? (siblingJob goPath).path = none := by rfl
  have hread : siblings.readText (siblingJob goPath).path = .ok "code\n".toList := by rfl
  rw [run_edit_onDisk rfl hread, hborn, outcome_sibling]
  cbv

theorem alone_sibling_copy :
    siblingEditor.alone ⟨⟨0⟩, none⟩ siblings (siblingJob goCopy) =
      .ok ⟨goCopy, "// H\ntext\n".toList, .inserted⟩ := by
  have hborn : siblings.birthTime? (siblingJob goCopy).path = none := by rfl
  have hread : siblings.readText (siblingJob goCopy).path = .ok "text\n".toList := by
    rfl
  rw [alone, run_edit_onDisk rfl hread, hborn, outcome_sibling_copy]
  cbv

theorem alone_siblings : [siblingJob goPath, siblingJob goCopy].map
    (siblingEditor.alone ⟨⟨0⟩, none⟩ siblings) =
      [.ok ⟨goPath, "// H\ncode\n".toList, .inserted⟩,
        .ok ⟨goCopy, "// H\ntext\n".toList, .inserted⟩] := by
  rw [List.map_cons, List.map_singleton, alone_sibling_copy, alone, run_edit_sibling]

/-- One after the other, the file is edited and its sibling is gone then. -/
theorem filesEdited_siblings : ∃ b fs', FilesEdited siblingEditor ⟨⟨0⟩, none⟩
    [siblingJob goPath, siblingJob goCopy] siblings b fs' ∧
    b.failures = [CreationError.failure ⟨goCopy, .fileNotFound⟩ none] := by
  have hgone : (siblingEditor.edit ⟨⟨0⟩, none⟩ (siblingJob goCopy)).run onlySibling =
      (.error (CreationError.failure ⟨goCopy, .fileNotFound⟩ none), onlySibling) :=
    run_edit_of_missing rfl (by decide)
  have hfirst := @Batch.reaches_first _ 2 (siblingWorker goPath)
    [(siblingWorker goCopy, .waiting)] [] ⟨1, 0, 0, 0⟩ _ rfl 0 [] siblings
  have hboth := hfirst.trans (Batch.reaches_first rfl ..)
  refine ⟨_, _, ⟨_, _, .ended rfl hboth, rfl, rfl⟩, ?_⟩
  rw [task_siblingWorker, task_siblingWorker, run_edit_sibling, hgone]
  rfl

/-- Two jobs take turns: both have read their files and have written a copy before either of them renames
one. The second job removes what is left. -/
def crossing : List ℕ := [0, 0, 0, 1, 1, 1, 0, 0, 0, 1, 1, 1, 0, 1, 1]

/-- The jobs for two files with one copy. -/
def strangeJobs : List Job := strangeNames.map fun path => { goJob with path }

def strangeEnd : List (Task (Worker (Except Failure Edit) × Except Failure Edit)) × FileSystem :=
  Task.goOn crossing
    ((strangeJobs.map (goEditor.fileWorker ⟨⟨0⟩, none⟩)).map fun w => (w, ·) <$> w.task) strangeFiles

theorem filesEdited_strange : ∃ b, FilesEdited goEditor ⟨⟨0⟩, none⟩ strangeJobs strangeFiles b
    strangeEnd.2 ∧ b.failures.length = 1 := by
  have hended : ∀ t ∈ strangeEnd.1, t.result?.isSome := by decide +kernel
  have hfailures : (failures ((strangeEnd.1.filterMap Task.result?).map Prod.snd)).length = 1 := by
    decide +kernel
  obtain ⟨b, hedited, -, hb⟩ :=
    exists_filesEdited (e := goEditor) rfl (by decide) (Task.interleaved_goOn hended)
  exact ⟨b, hedited, hb ▸ hfailures⟩

/-- Different files of which one is the copy of another one, and different files that have one copy:
alone, each of them can be edited. -/
theorem not_files_pointwise :
    (∃ b fs', FilesEdited siblingEditor ⟨⟨0⟩, none⟩ [siblingJob goPath, siblingJob goCopy] siblings
        b fs' ∧
      ¬b.failures.Perm (failures ([siblingJob goPath, siblingJob goCopy].map
        (siblingEditor.alone ⟨⟨0⟩, none⟩ siblings)))) ∧
    (∃ b fs', FilesEdited goEditor ⟨⟨0⟩, none⟩ strangeJobs strangeFiles b fs' ∧
      ¬b.failures.Perm (failures (strangeJobs.map (goEditor.alone ⟨⟨0⟩, none⟩ strangeFiles)))) ∧
    ∀ paths ∈ [[goPath, goCopy], strangeNames],
      (paths.map fun path => path.target []).Nodup := by
  refine ⟨?_, ?_, by decide +kernel⟩
  · obtain ⟨b, fs', hedited, hfailures⟩ := filesEdited_siblings
    refine ⟨b, fs', hedited, fun hperm => ?_⟩
    rw [hfailures, alone_siblings] at hperm
    cases hperm.length_eq
  · obtain ⟨b, hedited, hfailures⟩ := filesEdited_strange
    have halone : (failures (strangeJobs.map (goEditor.alone ⟨⟨0⟩, none⟩ strangeFiles))).length = 0 := by
      decide +kernel
    refine ⟨b, _, hedited, fun hperm => ?_⟩
    rw [hperm.length_eq, halone] at hfailures
    cases hfailures

end Examples

/-! ## The batches of the program -/

theorem completed_of_run {limit : ℕ} {workers : List (Worker α)} {finished : Finished α}
    (h : (runBatch limit false workers).run fs = (.ok finished, fs')) :
    ∃ results shared, Completed limit workers fs results shared ∧
      finished = ⟨results.map Prod.snd, shared.events, shared.gate⟩ ∧ fs' = shared.fs := by
  unfold runBatch at h
  cases hgate : Gate.ofLimit? limit with
  | none =>
    rw [hgate] at h
    cases congrArg Prod.fst h
  | some gate =>
    rw [hgate] at h
    dsimp only at h
    rw [if_neg Bool.false_ne_true, Task.run_bind] at h
    obtain ⟨hfinished, rfl⟩ := Prod.mk.inj h
    cases hfinished
    have hfree : gate.held < gate.limit := by
      rw [ofLimit?_eq hgate]
      exact Nat.lt_of_lt_of_le Nat.zero_lt_one (Nat.le_max_right limit 1)
    obtain ⟨collected, hcollected, hreaches⟩ := Batch.reaches_runWorkers hfree 0 [] [] workers
      (Prod.mk.eta.symm : (runWorkers workers.length 0 gate workers).run fs = _)
    refine ⟨_, _, .ended hgate hreaches, ?_, rfl⟩
    rw [List.nil_append, hcollected]
    rfl

theorem textsEdited_of_run {b : TextBatch}
    (h : (e.editTexts s false jobs).run fs = (.ok b, fs')) : TextsEdited e s jobs fs b fs' := by
  unfold editTexts at h
  rw [Task.run_bind] at h
  rcases hrun : (runBatch e.parallelism false (jobs.map (e.textWorker s))).run fs with ⟨outcome, after⟩
  rw [hrun] at h
  cases outcome with
  | error cause => cases congrArg Prod.fst h
  | ok finished =>
    obtain ⟨results, shared, hcompleted, rfl, rfl⟩ := completed_of_run hrun
    obtain ⟨hb, rfl⟩ := Prod.mk.inj h
    cases hb
    exact ⟨results, shared, hcompleted, rfl, rfl⟩

theorem filesEdited_of_run {b : FileBatch}
    (h : (e.editFiles s false jobs).run fs = (.ok b, fs')) : FilesEdited e s jobs fs b fs' := by
  unfold editFiles at h
  rw [Task.run_bind] at h
  rcases hrun : (runBatch e.parallelism false (jobs.map (e.fileWorker s))).run fs with ⟨outcome, after⟩
  rw [hrun] at h
  cases outcome with
  | error cause => cases congrArg Prod.fst h
  | ok finished =>
    obtain ⟨results, shared, hcompleted, rfl, rfl⟩ := completed_of_run hrun
    obtain ⟨hb, rfl⟩ := Prod.mk.inj h
    cases hb
    exact ⟨results, shared, hcompleted, by rw [List.length_map], rfl⟩

end Masthead.Editor
