import Masthead.Proofs.Editor.Namesakes

/-!
# Batches that name a file more than once

Jobs for the same file are edited side by side with nothing to keep them apart but the single file
operations. What holds of each group of jobs for one file is preserved by every operation of every job,
of its own ones and of the others.
-/
namespace Masthead.Editor
open FileSystem Header

/-- The path of the job leads to a file, which is at `l`. -/
def LeadsTo (fs : FileSystem) (l : Location) (job : Job) : Prop :=
  fs.kind? job.path = some .file ∧ job.path.target fs.workingDirectory = l

instance (fs : FileSystem) (l : Location) : DecidablePred (LeadsTo fs l) :=
  fun _ => inferInstanceAs (Decidable (_ ∧ _))

/-- No job names the place of the copy of a file that is edited, no two files that are edited have one
copy, and no read-only file is left over in the place of a copy. -/
structure CopiesApart (fs : FileSystem) (jobs : List Job) : Prop where
  unnamed : ∀ job ∈ jobs, ∀ l, LeadsTo fs l job →
    ∀ other ∈ jobs, other.path.target fs.workingDirectory ≠ copyLocation l
  own : ∀ job ∈ jobs, ∀ l, LeadsTo fs l job → ∀ other ∈ jobs, ∀ k, LeadsTo fs k other →
    copyLocation k = copyLocation l → k = l
  writable : ∀ job ∈ jobs, ∀ l, LeadsTo fs l job → ¬isReadOnly (fs.nodeAt? (copyLocation l))

/-- The locations of no file that is edited, and of none of the copies. -/
def elsewhere (fs : FileSystem) (jobs : List Job) : Set Location :=
  {k | ∀ job ∈ jobs, ∀ l, LeadsTo fs l job → k ≠ l ∧ k ≠ copyLocation l}

/-- The failure of a job whose file is not there. -/
def notFound (job : Job) : Failure := CreationError.failure ⟨job.path, .fileNotFound⟩ none

variable {e : Editor} {s : Surroundings} {fs now now' : FileSystem} {job other : Job}
  {jobs : List Job} {k : Editing} {ks : List Editing} {l : Location} {file : File}

theorem leadsTo_iff : LeadsTo fs l job ↔ ∃ file, fs.entry job.path = .ok (l, .file file) := by
  constructor
  · rintro ⟨hkind, rfl⟩
    obtain ⟨l, file, hentry⟩ := exists_file_of_kind? hkind
    obtain rfl : l = job.path.target fs.workingDirectory := location_of_locate (locate_of_entry hentry)
    exact ⟨file, hentry⟩
  · rintro ⟨file, hentry⟩
    exact ⟨by simp [kind?, hentry, Node.kind], (location_of_locate (locate_of_entry hentry)).symm⟩

theorem leadsTo_of_entry (h : fs.entry job.path = .ok (l, .file file)) : LeadsTo fs l job :=
  leadsTo_iff.mpr ⟨file, h⟩

theorem LeadsTo.entry_eq (h : LeadsTo fs l job) (hnode : fs.nodeAt? l = some (.file file)) :
    fs.entry job.path = .ok (l, .file file) := by
  obtain ⟨file', hentry⟩ := leadsTo_iff.mp h
  have hnode' := nodeAt?_of_locate (locate_of_entry hentry)
  rw [hnode] at hnode'
  cases hnode'
  exact hentry

/-- The jobs among others that work on the file at `l`. -/
def members (fs : FileSystem) (l : Location) (ks : List Editing) : Multiset Editing :=
  (ks : Multiset Editing).filter fun k => LeadsTo fs l k.job

theorem members_cons_of {phase : Phase} (h : LeadsTo fs l job) :
    members fs l (⟨job, phase⟩ :: ks) = ⟨job, phase⟩ ::ₘ members fs l ks := by
  rw [members, ← Multiset.cons_coe, Multiset.filter_cons, if_pos h, Multiset.singleton_add, members]

theorem members_cons_of_not {phase : Phase} (h : ¬LeadsTo fs l job) :
    members fs l (⟨job, phase⟩ :: ks) = members fs l ks := by
  rw [members, ← Multiset.cons_coe, Multiset.filter_cons, if_neg h, Multiset.zero_add, members]

variable (e s fs) in
/-- What holds of a batch all the time. -/
structure Underway (jobs : List Job) (ks : List Editing) (now : FileSystem) : Prop where
  all : (ks.map Editing.job).Perm jobs
  missing : ∀ k ∈ ks, fs.kind? k.job.path ≠ some .file →
    k.phase = .looking ∨ k.phase = .ended (.error (notFound k.job))
  files : ∀ job ∈ jobs, ∀ l file, fs.entry job.path = .ok (l, .file file) →
    ∃ cell, Shows fs l cell now ∧ (⟨e, s, fs, l, file⟩ : Site).Group (members fs l ks) cell
  others : AgreeOn (elsewhere fs jobs) fs now

namespace Underway

theorem perm {ks' : List Editing} (hperm : ks.Perm ks') (h : Underway e s fs jobs ks now) :
    Underway e s fs jobs ks' now where
  all := (hperm.map _).symm.trans h.all
  missing k hk := h.missing k (hperm.mem_iff.mpr hk)
  files job hjob l file hentry := by
    rw [members, ← Multiset.coe_eq_coe.mpr hperm]
    exact h.files job hjob l file hentry
  others := h.others

theorem start (hjobs : (ks.map Editing.job).Perm jobs) (hlooking : ∀ k ∈ ks, k.phase = .looking) :
    Underway e s fs jobs ks fs where
  all := hjobs
  missing k hk _ := .inl (hlooking k hk)
  files job _ l file hentry := by
    have hnode := nodeAt?_of_locate (locate_of_entry hentry)
    refine ⟨_, ⟨⟨.refl _ _, hnode⟩, rfl⟩, Site.group_start hnode fun k hk => ?_⟩
    exact hlooking k (Multiset.mem_coe.mp (Multiset.mem_of_mem_filter hk))
  others := .refl _ _

section Step

variable {phase : Phase} (h : Underway e s fs jobs (⟨job, phase⟩ :: ks) now)
  (hcopies : CopiesApart fs jobs)
include h

theorem mem_jobs : job ∈ jobs := h.all.mem_iff.mp (List.mem_cons_self ..)

include hcopies in
/-- A file that is not there does not appear: only files that are there and copies are written. -/
theorem kind?_of_missing (hmissing : fs.kind? job.path ≠ some .file) :
    now.kind? job.path ≠ some .file := by
  refine mt (kind?_of_agreeOn (h.others.mono (Set.empty_subset _)).symm fun file hnow => ?_) hmissing
  rw [h.others.workingDirectory] at hnow ⊢
  by_cases helse : job.path.target fs.workingDirectory ∈ elsewhere fs jobs
  · exact ⟨file, (h.others.node _ helse).symm.trans hnow⟩
  · simp only [elsewhere, Set.mem_ofPred_eq, not_forall, not_and_or, not_not] at helse
    obtain ⟨other, hother, l, hleads, hfile | hcopy⟩ := helse
    · obtain ⟨file', hentry⟩ := leadsTo_iff.mp hleads
      exact ⟨file', hfile ▸ nodeAt?_of_locate (locate_of_entry hentry)⟩
    · exact absurd hcopy (hcopies.unnamed other hother l hleads job h.mem_jobs)

theorem step_missing (hmissing : fs.kind? job.path ≠ some .file) :
    Underway e s fs jobs (⟨job, .ended (.error (notFound job))⟩ :: ks) now where
  all := h.all
  missing other hother hnone := by
    obtain rfl | hother := List.mem_cons.mp hother
    · exact .inr rfl
    · exact h.missing other (List.mem_cons_of_mem _ hother) hnone
  files other hother l file hentry := by
    have hnot : ¬LeadsTo fs l job := fun hleads => hmissing hleads.1
    have hfiles := h.files other hother l file hentry
    rwa [members_cons_of_not hnot] at hfiles ⊢
  others := h.others

include hcopies in
theorem step_file {phase' : Phase} {cell' : Cell} (hentry : fs.entry job.path = .ok (l, .file file))
    (hgroup : (⟨e, s, fs, l, file⟩ : Site).Group (members fs l (⟨job, phase'⟩ :: ks)) cell')
    (hshows : Shows fs l cell' now') (hsame : AgreeOn {l, copyLocation l}ᶜ now now') :
    Underway e s fs jobs (⟨job, phase'⟩ :: ks) now' where
  all := h.all
  missing other hother hnone := by
    obtain rfl | hother := List.mem_cons.mp hother
    · exact absurd (leadsTo_of_entry hentry).1 hnone
    · exact h.missing other (List.mem_cons_of_mem _ hother) hnone
  files other hother l' file' hentry' := by
    have hleads := leadsTo_of_entry hentry
    have hleads' := leadsTo_of_entry hentry'
    have hnode := nodeAt?_of_locate (locate_of_entry hentry)
    have hnode' := nodeAt?_of_locate (locate_of_entry hentry')
    by_cases hl : l' = l
    · subst hl
      cases hnode.symm.trans hnode'
      exact ⟨cell', hshows, hgroup⟩
    · have hnot : ¬LeadsTo fs l' job := fun hjob => hl (hjob.2.symm.trans hleads.2)
      obtain ⟨cell, hshows', hgroup'⟩ := h.files other hother l' file' hentry'
      rw [members_cons_of_not hnot] at hgroup' ⊢
      refine ⟨cell, hshows'.congr (hsame.mono ?_), hgroup'⟩
      rintro k (rfl | rfl) (hk | hk)
      · exact hl hk
      · exact hcopies.unnamed job h.mem_jobs l hleads other hother (hleads'.2.trans hk)
      · exact hcopies.unnamed other hother l' hleads' job h.mem_jobs (hleads.2.trans hk.symm)
      · exact hl (hcopies.own job h.mem_jobs l hleads other hother l' hleads' hk)
  others := by
    refine h.others.trans (hsame.mono fun k hk => ?_)
    obtain ⟨hfile, hcopy⟩ := hk job h.mem_jobs l (leadsTo_of_entry hentry)
    simp [hfile, hcopy]

include hcopies in
/-- Every operation of every job preserves what holds of the batch. -/
theorem step (hlive : ∀ result, phase ≠ .ended result) :
    Underway e s fs jobs (⟨job, (phase.advance e s job now).1⟩ :: ks) (phase.advance e s job now).2 := by
  by_cases hkind : fs.kind? job.path = some .file
  · obtain ⟨l, file, hentry⟩ := exists_file_of_kind? hkind
    have hleads := leadsTo_of_entry hentry
    obtain ⟨cell, hshows, hgroup⟩ := h.files job h.mem_jobs l file hentry
    rw [members_cons_of hleads] at hgroup
    have hnames : (⟨e, s, fs, l, file⟩ : Site).Names job := hentry
    have hopened := Site.refusal?_of_fact (hgroup.facts _ (Multiset.mem_cons_self _ _))
    obtain ⟨cell', hmoves, hshows', hsame⟩ := Site.exists_moves hnames hshows hlive hopened
    refine h.step_file hcopies hentry ?_ hshows' hsame
    rw [members_cons_of hleads]
    exact hgroup.step (hcopies.writable job h.mem_jobs l hleads) hmoves
  · have hnow := h.kind?_of_missing hcopies hkind
    obtain rfl | hended := h.missing _ (List.mem_cons_self ..) hkind
    · rw [Phase.advance, Phase.ofKind, if_neg hnow]
      exact h.step_missing hkind
    · exact absurd hended (hlive _)

end Step

end Underway

/-! ## The whole batch -/

variable (e s) in
/-- What is left to do of a job, with its worker beside the result. -/
def Editing.task (k : Editing) : Task (Worker (Except Failure Edit) × Except Failure Edit) :=
  (e.fileWorker s k.job, ·) <$> k.phase.task e s k.job

theorem Underway.call {op : FileOperation}
    {next : op.Answer → Task (Worker (Except Failure Edit) × Except Failure Edit)}
    (h : Underway e s fs jobs (k :: ks) now) (hcopies : CopiesApart fs jobs)
    (htask : k.task e s = .call op next) :
    ∃ k' : Editing, k'.task e s = next (op.apply now).1 ∧
      Underway e s fs jobs (k' :: ks) (op.apply now).2 := by
  obtain ⟨job, phase⟩ := k
  rw [Editing.task] at htask
  cases hphase : phase.task e s job with
  | done result =>
    rw [hphase] at htask
    cases htask
  | call op' next' =>
    rw [hphase] at htask
    cases htask
    obtain ⟨hnext, hnow⟩ := Phase.task_advance hphase now
    have hlive : ∀ result, phase ≠ .ended result := by
      rintro result rfl
      rw [task_ended] at hphase
      cases hphase
    have hstep := h.step hcopies hlive
    rw [hnow] at hstep
    refine ⟨_, ?_, hstep⟩
    rw [Editing.task]
    dsimp only
    rw [hnext]
    rfl

theorem ended_of_task {wa : Worker (Except Failure Edit) × Except Failure Edit}
    (h : k.task e s = .done wa) : k = ⟨k.job, .ended wa.2⟩ ∧ wa.1 = e.fileWorker s k.job := by
  obtain ⟨job, phase⟩ := k
  cases phase with
  | ended result =>
    rw [Editing.task, task_ended] at h
    cases h
    exact ⟨rfl, rfl⟩
  | _ =>
    rw [Editing.task, Phase.task] at h
    cases h

theorem exists_results {ended : List Editing}
    {collected : List (Worker (Except Failure Edit) × Except Failure Edit)}
    (h : ended.map (Editing.task e s) = collected.map .done) :
    ∃ results : List (Job × Except Failure Edit),
      ended = results.map (fun jr => ⟨jr.1, .ended jr.2⟩) ∧
      collected = results.map fun jr => (e.fileWorker s jr.1, jr.2) := by
  induction ended generalizing collected with
  | nil =>
    obtain rfl := List.map_eq_nil_iff.mp h.symm
    exact ⟨[], rfl, rfl⟩
  | cons k ended ih =>
    obtain ⟨wa, collected, rfl, hwa, hcollected⟩ := List.map_eq_cons_iff.mp h.symm
    obtain ⟨results, rfl, rfl⟩ := ih hcollected.symm
    obtain ⟨hk, hworker⟩ := ended_of_task hwa.symm
    exact ⟨(k.job, wa.2) :: results, by rw [List.map_cons, ← hk], by rw [List.map_cons, ← hworker]⟩

theorem map_task_fileWorker (hdisk : ∀ job ∈ jobs, job.source = .onDisk) :
    ((jobs.map (e.fileWorker s)).map fun w => (w, ·) <$> w.task) =
      (jobs.map fun job => (⟨job, .looking⟩ : Editing)).map (Editing.task e s) := by
  rw [List.map_map, List.map_map]
  refine List.map_congr_left fun job hjob => ?_
  simp only [Function.comp_apply, Editing.task, ← edit_eq e s (hdisk job hjob)]
  rfl

theorem FilesEdited.exists_underway {b : FileBatch} (h : FilesEdited e s jobs fs b now)
    (hdisk : ∀ job ∈ jobs, job.source = .onDisk) (hcopies : CopiesApart fs jobs) :
    ∃ results : List (Job × Except Failure Edit),
      Underway e s fs jobs (results.map fun jr => ⟨jr.1, .ended jr.2⟩) now ∧
      b.processed = results.length ∧
      b.changed = changes (results.map Prod.snd) ∧
      b.failures = failures (results.map Prod.snd) ∧
      Announced jobs (fun _ => none) b.events := by
  obtain ⟨collected, shared, hcompleted, rfl, rfl⟩ := h
  have hinterleaved := hcompleted.interleaved
  rw [map_task_fileWorker hdisk] at hinterleaved
  have hstart : Underway e s fs jobs ((jobs.map fun job => ⟨job, .looking⟩) ++ []) fs := by
    rw [List.append_nil]
    refine .start ?_ ?_
    · simp [Function.comp_def]
    · simp
  obtain ⟨ended, hended, hunderway⟩ := hinterleaved.invariant (P := Underway e s fs jobs)
    (fun hperm hinv => hinv.perm hperm) (fun hinv htask => hinv.call hcopies htask) hstart
  obtain ⟨results, rfl, rfl⟩ := exists_results hended
  rw [List.append_nil] at hunderway
  have hall : (results.map Prod.fst).Perm jobs := by
    have hall := hunderway.all
    rwa [List.map_map] at hall
  refine ⟨results, hunderway, List.length_map .., ?_, ?_, ?_⟩
  · simp [Function.comp_def]
  · simp [Function.comp_def]
  · obtain ⟨hnumbers, htotals, hreports⟩ := hcompleted.recorded
    have hlength := hall.length_eq
    rw [List.length_map] at hnumbers htotals hlength
    refine ⟨hlength ▸ hnumbers, htotals, hreports.trans ?_⟩
    have hpaths := hall.map fun job => (job.path, (none : Option Text))
    rw [List.map_map] at hpaths ⊢
    exact hpaths

end Masthead.Editor
