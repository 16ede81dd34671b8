import Masthead.Proofs.Editor.Interference

/-!
# What becomes of files that are named more than once

Each job for a file comes to what it comes to after some of the other jobs for it, done one after the
other; or another one was faster and its copy is gone, or is read-only. The file holds what some of the
jobs, one after the other, make of it. All of them together need not be what comes of them in any one
order.
-/
namespace Masthead.Editor
open FileSystem Header

variable {e : Editor} {s : Surroundings} {fs now : FileSystem} {job : Job}
  {jobs : List Job} {k : Editing} {ks : List Editing} {l : Location} {file : File}

/-- What the file at a location holds, if there is a file. -/
def contentAt? (fs : FileSystem) (l : Location) : Option Content :=
  match fs.nodeAt? l with
  | some (.file file) => some file.content
  | _ => none

/-- The turns are of jobs for the file at `l`, each of which sees a birth time that the file may come to
have. -/
def TurnsAt (fs : FileSystem) (l : Location) (order : List Turn) : Prop :=
  ∀ turn ∈ order, LeadsTo fs l turn.1 ∧ IsBirth fs l turn.2

variable (e s) in
/-- The result is that of the job alone, after some of the other jobs for its file were done one after
the other. -/
def AfterSome (jobs : List Job) (fs : FileSystem) (job : Job) (result : Except Failure Edit) :
    Prop :=
  ∃ (order : List Turn) (born : Option Moment),
    TurnsAt fs (job.path.target fs.workingDirectory) order ∧
    IsBirth fs (job.path.target fs.workingDirectory) born ∧
    (job :: order.map Prod.fst).Subperm jobs ∧
    result = e.alone s (redated (afterEdits e s (job.path.target fs.workingDirectory) order fs)
      (job.path.target fs.workingDirectory) born) job

/-- The copy could not be opened: the file is read-only, and another job for it has given the copy the
permissions of the file. -/
def TurnedAway (fs : FileSystem) (results : List (Job × Except Failure Edit)) (job : Job)
    (result : Except Failure Edit) : Prop :=
  result = .error (ioFailure job .permissionDenied) ∧
    ∃ l file, fs.entry job.path = .ok (l, .file file) ∧ file.permissions.readOnly ∧
      ∃ jr : Job × Except Failure Edit, [(job, result), jr].Subperm results ∧ LeadsTo fs l jr.1

variable (e s) in
/-- The copy was not there any more, because some job for the same file had renamed or removed it. -/
def TooLate (jobs : List Job) (fs : FileSystem) (results : List (Job × Except Failure Edit))
    (job : Job) (result : Except Failure Edit) : Prop :=
  result = .error (ioFailure job .notFound) ∧ ∃ l, LeadsTo fs l job ∧
    ∃ jr ∈ results, LeadsTo fs l jr.1 ∧
      (AfterSome e s jobs fs jr.1 jr.2 ∧ Decides fs l jr.1 jr.2 ∨ TurnedAway fs results jr.1 jr.2)

variable (e s) in
/-- What a batch of files comes to, some of which may be named more than once. -/
structure FilesShared (jobs : List Job) (fs : FileSystem) (b : FileBatch) (fs' : FileSystem)
    (results : List (Job × Except Failure Edit)) : Prop where
  all : (results.map Prod.fst).Perm jobs
  processed : b.processed = jobs.length
  changed : b.changed = changes (results.map Prod.snd)
  failures : b.failures = failures (results.map Prod.snd)
  events : Announced jobs (fun _ => none) b.events
  outcomes : ∀ jr ∈ results, AfterSome e s jobs fs jr.1 jr.2 ∨ TooLate e s jobs fs results jr.1 jr.2 ∨
    TurnedAway fs results jr.1 jr.2
  files : ∀ job ∈ jobs, ∀ l, LeadsTo fs l job → ∃ order : List Turn, TurnsAt fs l order ∧
    (order.map Prod.fst).Subperm (jobs.filter (LeadsTo fs l)) ∧
    contentAt? fs' l = contentAt? (afterEdits e s l order fs) l ∧
    (order ≠ [] ↔ ∃ jr ∈ results, LeadsTo fs l jr.1 ∧ ChangesFile jr.2)
  copies : ∀ job ∈ jobs, ∀ l, LeadsTo fs l job →
    fs'.nodeAt? (copyLocation l) = fs.nodeAt? (copyLocation l) ∨ fs'.nodeAt? (copyLocation l) = none
  others : AgreeOn (elsewhere fs jobs) fs fs'

/-! ## The end of a batch -/

section Ended

variable {results : List (Job × Except Failure Edit)}

theorem mem_members_iff : k ∈ members fs l ks ↔ k ∈ ks ∧ LeadsTo fs l k.job := by
  rw [members, Multiset.mem_filter, Multiset.mem_coe]

theorem ended_of_mem
    (hk : k ∈ members fs l (results.map fun jr => ⟨jr.1, .ended jr.2⟩)) :
    ∃ jr ∈ results, LeadsTo fs l jr.1 ∧ k = ⟨jr.1, .ended jr.2⟩ := by
  obtain ⟨hk, hleads⟩ := mem_members_iff.mp hk
  obtain ⟨jr, hjr, rfl⟩ := List.mem_map.mp hk
  exact ⟨jr, hjr, hleads, rfl⟩

variable (h : Underway e s fs jobs (results.map fun jr => ⟨jr.1, .ended jr.2⟩) now)
include h

theorem Underway.all_ended : (results.map Prod.fst).Perm jobs := by
  have hall := h.all
  rwa [List.map_map] at hall

theorem Underway.past_ended (l : Location) :
    Site.past (members fs l (results.map fun jr => ⟨jr.1, .ended jr.2⟩)) =
      (jobs.filter (LeadsTo fs l) : List Job) := by
  rw [Site.past_of_ended]
  · have hjobs : Multiset.map Editing.job
        (results.map fun jr => ⟨jr.1, .ended jr.2⟩ : List Editing) = (jobs : Multiset Job) := by
      rw [Multiset.map_coe]
      exact Multiset.coe_eq_coe.mpr h.all
    have hfilter := Multiset.filter_map (p := LeadsTo fs l) Editing.job
      (results.map fun jr => ⟨jr.1, .ended jr.2⟩ : List Editing)
    rw [hjobs, Multiset.filter_coe] at hfilter
    exact hfilter.symm
  · intro k hk
    obtain ⟨jr, -, -, rfl⟩ := ended_of_mem hk
    exact ⟨jr.2, rfl⟩

end Ended

section Serial

variable {order : List Turn}
  (hwithin : (⟨e, s, fs, l, file⟩ : Site).Within (jobs.filter (LeadsTo fs l) : List Job) order)
include hwithin

theorem turnsAt_of_within : TurnsAt fs l order := by
  intro turn hturn
  have hmem := (Multiset.coe_le.mp hwithin.jobs).subset (List.mem_map_of_mem hturn)
  exact ⟨of_decide_eq_true (List.mem_filter.mp hmem).2, hwithin.births turn hturn⟩

variable (hentry : fs.entry job.path = .ok (l, .file file)) (hdisk : ∀ job ∈ jobs, job.source = .onDisk)
  (hfree : (⟨e, s, fs, l, file⟩ : Site).Free)
include hentry hdisk

theorem serial_turns :
    ∀ turn ∈ order, (⟨e, s, fs, l, file⟩ : Site).Names turn.1 ∧ turn.1.source = .onDisk := by
  intro turn hturn
  have hmem := (Multiset.coe_le.mp hwithin.jobs).subset (List.mem_map_of_mem hturn)
  obtain ⟨hjobs, hleads⟩ := List.mem_filter.mp hmem
  have hnode := nodeAt?_of_locate (locate_of_entry hentry)
  exact ⟨(of_decide_eq_true hleads).entry_eq hnode, hdisk turn.1 hjobs⟩

include hfree

theorem contentAt?_afterEdits : contentAt? (afterEdits e s l order fs) l =
    some ((⟨e, s, fs, l, file⟩ : Site).contentAfter order) := by
  have hserial := serial_turns hwithin hentry hdisk
  obtain ⟨cell, hshows, hcontent, -⟩ := Site.shows_afterEdits
    (nodeAt?_of_locate (locate_of_entry hentry)) hfree (fun turn hturn => (hserial turn hturn).1)
    fun turn hturn => (hserial turn hturn).2
  rw [← hcontent, contentAt?, hshows.node]

end Serial

theorem afterSome_of_serial (hentry : fs.entry job.path = .ok (l, .file file))
    (hdisk : ∀ job ∈ jobs, job.source = .onDisk)
    (hfree : (⟨e, s, fs, l, file⟩ : Site).Free) {result : Except Failure Edit}
    (h : (⟨e, s, fs, l, file⟩ : Site).Serial (jobs.filter (LeadsTo fs l) : List Job) job result) :
    AfterSome e s jobs fs job result := by
  obtain ⟨order, born, ⟨hjobs, hbirths⟩, rfl⟩ := h
  obtain ⟨hborn, horder⟩ := List.forall_mem_cons.mp hbirths
  obtain ⟨-, rfl⟩ : LeadsTo fs l job := leadsTo_of_entry hentry
  have hwithin : (⟨e, s, fs, _, file⟩ : Site).Within
      (jobs.filter (LeadsTo fs (job.path.target fs.workingDirectory)) : List Job) order :=
    ⟨(Multiset.le_cons_self _ _).trans hjobs, horder⟩
  have hserial := serial_turns hwithin hentry hdisk
  have hall := Multiset.coe_le.mp hjobs
  have hjob := (List.mem_filter.mp (hall.subset (List.mem_cons_self ..))).1
  refine ⟨order, born, turnsAt_of_within hwithin, hborn,
    hall.trans List.filter_sublist.subperm, ?_⟩
  have hnames : (⟨e, s, fs, _, file⟩ : Site).Names job := hentry
  exact (Site.alone_afterEdits (nodeAt?_of_locate (locate_of_entry hentry)) hfree
    (fun turn hturn => (hserial turn hturn).1) (fun turn hturn => (hserial turn hturn).2) hnames
    (hdisk job hjob) born).symm

section Shared

variable {results : List (Job × Except Failure Edit)}

theorem exists_other {jr : Job × Except Failure Edit} (hjr : jr ∈ results) (hleads : LeadsTo fs l jr.1)
    (hmany : 1 < Multiset.card (members fs l (results.map fun jr => ⟨jr.1, .ended jr.2⟩))) :
    ∃ other : Job × Except Failure Edit, [jr, other].Subperm results ∧ LeadsTo fs l other.1 := by
  have hcard : Multiset.card (members fs l (results.map fun jr => ⟨jr.1, .ended jr.2⟩)) =
      (results.filter fun jr => LeadsTo fs l jr.1).length := by
    rw [members, Multiset.filter_coe, Multiset.coe_card, List.filter_map, List.length_map]
    rfl
  have hmem : jr ∈ results.filter fun jr => LeadsTo fs l jr.1 :=
    List.mem_filter.mpr ⟨hjr, decide_eq_true hleads⟩
  obtain ⟨front, back, hsplit⟩ := List.append_of_mem hmem
  have hothers : front ++ back ≠ [] := by
    intro hnil
    obtain ⟨rfl, rfl⟩ := List.append_eq_nil_iff.mp hnil
    rw [hcard, hsplit] at hmany
    exact absurd hmany (by simp)
  obtain ⟨other, hother⟩ := List.exists_mem_of_ne_nil _ hothers
  have hperm : (results.filter fun jr => LeadsTo fs l jr.1).Perm (jr :: (front ++ back)) :=
    hsplit ▸ List.perm_middle
  refine ⟨other, ?_, ?_⟩
  · have hpair : [jr, other].Subperm (jr :: (front ++ back)) :=
      (List.subperm_cons jr).mpr (List.singleton_subperm_iff.mpr hother)
    exact (hpair.trans hperm.symm.subperm).trans List.filter_sublist.subperm
  · have hmem' := hperm.mem_iff.mpr (List.mem_cons_of_mem jr hother)
    exact of_decide_eq_true (List.mem_filter.mp hmem').2

theorem turnedAway_of_denying {jr : Job × Except Failure Edit} (hjr : jr ∈ results)
    (hentry : fs.entry jr.1.path = .ok (l, .file file))
    (hdenied : jr.2 = .error (ioFailure jr.1 .permissionDenied))
    (hdenying : (⟨e, s, fs, l, file⟩ : Site).Denying
      (members fs l (results.map fun jr => ⟨jr.1, .ended jr.2⟩))) :
    TurnedAway fs results jr.1 jr.2 :=
  ⟨hdenied, l, file, hentry, hdenying.1, exists_other hjr (leadsTo_of_entry hentry) hdenying.2⟩

variable (h : Underway e s fs jobs (results.map fun jr => ⟨jr.1, .ended jr.2⟩) now)
  (hdisk : ∀ job ∈ jobs, job.source = .onDisk) (hcopies : CopiesApart fs jobs)
include h hdisk hcopies

theorem Underway.outcome_of_ended {jr : Job × Except Failure Edit} (hjr : jr ∈ results) :
    AfterSome e s jobs fs jr.1 jr.2 ∨ TooLate e s jobs fs results jr.1 jr.2 ∨
      TurnedAway fs results jr.1 jr.2 := by
  have hk : (⟨jr.1, .ended jr.2⟩ : Editing) ∈ results.map fun jr => ⟨jr.1, .ended jr.2⟩ :=
    List.mem_map_of_mem hjr
  have hjob : jr.1 ∈ jobs := h.all_ended.mem_iff.mp (List.mem_map_of_mem hjr)
  by_cases hkind : fs.kind? jr.1.path = some .file
  · obtain ⟨l, file, hentry⟩ := exists_file_of_kind? hkind
    have hleads := leadsTo_of_entry hentry
    have hfree := hcopies.writable _ hjob l hleads
    obtain ⟨cell, -, hgroup⟩ := h.files _ hjob l file hentry
    have hfact := hgroup.facts _ (mem_members_iff.mpr ⟨hk, hleads⟩)
    rw [h.past_ended] at hfact
    obtain hserial | ⟨hlost, k, hmem, result, hended, hdecides⟩ | ⟨hdenied, hdenying⟩ := hfact
    · exact .inl (afterSome_of_serial hentry hdisk hfree hserial)
    · obtain ⟨other, hother, hsame, rfl⟩ := ended_of_mem hmem
      cases hended
      have hentry' := hsame.entry_eq (nodeAt?_of_locate (locate_of_entry hentry))
      refine .inr (.inl ⟨hlost, l, hleads, other, hother, hsame, ?_⟩)
      obtain ⟨hserial, hdecides⟩ | ⟨hdenied, hdenying⟩ := hdecides
      · rw [h.past_ended] at hserial
        exact .inl ⟨afterSome_of_serial hentry' hdisk hfree hserial, hdecides⟩
      · exact .inr (turnedAway_of_denying hother hentry' hdenied hdenying)
    · exact .inr (.inr (turnedAway_of_denying hjr hentry hdenied hdenying))
  · left
    obtain hphase | hphase := h.missing _ hk hkind
    · cases hphase
    · refine ⟨[], fs.clock, by simp [TurnsAt], .inl rfl, List.singleton_subperm_iff.mpr hjob, ?_⟩
      have hgone : (redated fs (jr.1.path.target fs.workingDirectory) fs.clock).kind? jr.1.path ≠
          some .file := mt kind?_redated hkind
      have hrun := run_edit_of_missing (e := e) (s := s) (hdisk _ hjob) hgone
      rw [Phase.ended.inj hphase, Editor.alone]
      exact (congrArg Prod.fst hrun).symm

theorem Underway.file_of_ended (hleads : LeadsTo fs l job) (hjob : job ∈ jobs) :
    (∃ order : List Turn, TurnsAt fs l order ∧
      (order.map Prod.fst).Subperm (jobs.filter (LeadsTo fs l)) ∧
      contentAt? now l = contentAt? (afterEdits e s l order fs) l ∧
      (order ≠ [] ↔ ∃ jr ∈ results, LeadsTo fs l jr.1 ∧ ChangesFile jr.2)) ∧
    (now.nodeAt? (copyLocation l) = fs.nodeAt? (copyLocation l) ∨
      now.nodeAt? (copyLocation l) = none) := by
  obtain ⟨file, hentry⟩ := leadsTo_iff.mp hleads
  obtain ⟨cell, hshows, hgroup⟩ := h.files _ hjob l file hentry
  constructor
  · obtain ⟨order, hleaves, horder⟩ := hgroup.file
    rw [h.past_ended] at hleaves
    refine ⟨order, turnsAt_of_within hleaves.within, Multiset.coe_le.mp hleaves.within.jobs,
      ?_, ?_⟩
    · rw [contentAt?_afterEdits hleaves.within hentry hdisk (hcopies.writable _ hjob l hleads),
        contentAt?, hshows.node, ← hleaves.content]
    · rw [horder]
      constructor
      · rintro ⟨k, hk, result, hended, hchange⟩
        obtain ⟨jr, hjr, hleads, rfl⟩ := ended_of_mem hk
        cases hended
        exact ⟨jr, hjr, hleads, hchange⟩
      · rintro ⟨jr, hjr, hleads, hchange⟩
        exact ⟨_, mem_members_iff.mpr ⟨List.mem_map_of_mem hjr, hleads⟩, _, rfl, hchange⟩
  · rw [hshows.copy]
    refine hgroup.copy_of_ended fun k hk => ?_
    obtain ⟨jr, -, -, rfl⟩ := ended_of_mem hk
    exact ⟨jr.2, rfl⟩

end Shared

variable (e s fs) in
/-- A batch of files, some of which may be named more than once, always comes to its end. Whatever the
order of its steps, every result is that of its job after some others for the same file, or its copy was
gone or read-only; and every file holds what some of its jobs make of it. -/
theorem batches_shared {gate : Gate} (hgate : Gate.ofLimit? e.parallelism = some gate)
    (hdisk : ∀ job ∈ jobs, job.source = .onDisk) (hcopies : CopiesApart fs jobs) :
    AlwaysEnds gate (jobs.map (e.fileWorker s)) fs ∧ (∃ b fs', FilesEdited e s jobs fs b fs') ∧
      ∀ b fs', FilesEdited e s jobs fs b fs' →
        ∃ results, FilesShared e s jobs fs b fs' results := by
  obtain ⟨results, shared, hcompleted⟩ := exists_completed hgate (jobs.map (e.fileWorker s)) fs
  refine ⟨alwaysEnds hgate _ fs, ⟨_, _, results, shared, hcompleted, rfl, rfl⟩, ?_⟩
  intro b fs' hedited
  obtain ⟨results, hunderway, hprocessed, hchanged, hfailures, hevents⟩ :=
    hedited.exists_underway hdisk hcopies
  exact ⟨results,
    { all := hunderway.all_ended
      processed := by rw [hprocessed, ← hunderway.all_ended.length_eq, List.length_map]
      changed := hchanged
      failures := hfailures
      events := hevents
      outcomes := fun jr hjr => hunderway.outcome_of_ended hdisk hcopies hjr
      files := fun job hjob l hleads => (hunderway.file_of_ended hdisk hcopies hleads hjob).1
      copies := fun job hjob l hleads => (hunderway.file_of_ended hdisk hcopies hleads hjob).2
      others := hunderway.others }⟩

/-! ## One job after the other -/

variable (e s) in
/-- What jobs come to that are done one after the other. -/
def serialResults : List Job → FileSystem → List (Except Failure Edit)
  | [], _ => []
  | job :: order, fs => e.alone s fs job :: serialResults order ((e.edit s job).run fs).2

variable (e s) in
def serialEnd (order : List Job) (fs : FileSystem) : FileSystem :=
  order.foldl (fun fs job => ((e.edit s job).run fs).2) fs

/-- The changes, failures and files are those of the jobs in the order. -/
structure EndsAs (e : Editor) (s : Surroundings) (order : List Job) (fs : FileSystem)
    (changed : List (Path × Action)) (failed : List Failure) (fs' : FileSystem) : Prop where
  changed : changed.Perm (changes (serialResults e s order fs))
  failed : failed.Perm (failures (serialResults e s order fs))
  files : ∀ job ∈ order, fs'.readText job.path = (serialEnd e s order fs).readText job.path

variable (e s) in
/-- The jobs could have been done one after the other in some order. -/
def SerialEnd (jobs : List Job) (fs : FileSystem) (b : FileBatch) (fs' : FileSystem) : Prop :=
  ∃ order : List Job, order.Perm jobs ∧ EndsAs e s order fs b.changed b.failures fs'

instance (order : List Job) (changed : List (Path × Action)) (failed : List Failure) :
    Decidable (EndsAs e s order fs changed failed now) :=
  decidable_of_iff
    (changed.Perm (changes (serialResults e s order fs)) ∧
      failed.Perm (failures (serialResults e s order fs)) ∧
      ∀ job ∈ order, now.readText job.path = (serialEnd e s order fs).readText job.path)
    ⟨fun ⟨hchanged, hfailed, hfiles⟩ => ⟨hchanged, hfailed, hfiles⟩,
      fun h => ⟨h.changed, h.failed, h.files⟩⟩

/-- Jobs, the files they start with, and whose turn it is to do the next operation. -/
structure Race where
  jobs : List Job
  start : FileSystem
  turns : List ℕ

namespace Race

variable (e s) in
/-- What is left of the jobs when all turns were taken. -/
def last (r : Race) : List (Task (Worker (Except Failure Edit) × Except Failure Edit)) × FileSystem :=
  Task.goOn r.turns ((r.jobs.map (e.fileWorker s)).map fun w => (w, ·) <$> w.task) r.start

variable (e s) in
def results (r : Race) : List (Except Failure Edit) :=
  ((r.last e s).1.filterMap Task.result?).map Prod.snd

variable (e s) in
/-- All jobs have ended, and not as in any order of theirs. -/
structure Unfair (r : Race) : Prop where
  ended : ∀ t ∈ (r.last e s).1, t.result?.isSome
  unfair : ∀ order ∈ r.jobs.permutations', ¬EndsAs e s order r.start (changes (r.results e s))
    (failures (r.results e s)) (r.last e s).2

instance (r : Race) : Decidable (r.Unfair e s) :=
  decidable_of_iff
    ((∀ t ∈ (r.last e s).1, t.result?.isSome) ∧ ∀ order ∈ r.jobs.permutations',
      ¬EndsAs e s order r.start (changes (r.results e s)) (failures (r.results e s)) (r.last e s).2)
    ⟨fun ⟨hended, hunfair⟩ => ⟨hended, hunfair⟩, fun h => ⟨h.ended, h.unfair⟩⟩

/-- With a permit for every job, a batch can take the turns of the race. -/
theorem Unfair.exists_filesEdited {r : Race} (h : r.Unfair e s) {gate : Gate}
    (hgate : Gate.ofLimit? e.parallelism = some gate) (hall : r.jobs.length ≤ e.parallelism) :
    ∃ b, FilesEdited e s r.jobs r.start b (r.last e s).2 ∧
      b.changed = changes (r.results e s) ∧ b.failures = failures (r.results e s) ∧
      ¬SerialEnd e s r.jobs r.start b (r.last e s).2 := by
  obtain ⟨b, hedited, hchanged, hfailures⟩ :=
    Editor.exists_filesEdited hgate hall (Task.interleaved_goOn h.ended)
  refine ⟨b, hedited, hchanged, hfailures, ?_⟩
  rintro ⟨order, horder, hend⟩
  rw [hchanged, hfailures] at hend
  exact h.unfair order (List.mem_permutations'.mpr horder) hend

end Race

section Examples

/-- An editor that works on up to three files at once. -/
def rivalEditor : Editor := { siblingEditor with parallelism := 3 }

def rival : Job := siblingJob goPath

/-- The same file in another spelling. -/
def sameRival : Job := siblingJob (Path.ofText "./a.go".toList)

def rivals : List Job := [rival, sameRival]

/-- Both jobs have read the file. The one that renames the copy first leaves none for the other one. -/
def lateRace : Race where
  jobs := rivals
  start := siblings
  turns := crossing

/-- Both jobs have read the file, and each of them adds the header to what it has read. -/
def doubleRace : Race where
  jobs := rivals
  start := siblings
  turns := [0, 0, 0, 1, 1, 1, 0, 0, 0, 0, 1, 1, 1, 1]

/-- A job has written the copy, which is then read as a file of its own. -/
def copyRace : Race where
  jobs := rivals ++ [siblingJob goCopy]
  start := siblings
  turns := [0, 0, 0, 0, 2, 2, 2, 0, 0, 0, 1, 1, 1]

def lockedFile : FileSystem where
  entries := [([Text.encode "a.go".toList],
    .file { content := .text "code\n".toList, permissions := ⟨true⟩ })]
  workingDirectory := []

/-- The copy has become read-only, as the file is, before the other job opens it. -/
def lockedRace : Race where
  jobs := rivals
  start := lockedFile
  turns := [0, 0, 0, 1, 1, 1, 0, 0, 0, 1, 1, 0, 0]

def lockedCopy : FileSystem where
  entries := [([Text.encode "a.go".toList], .file { content := .text "code\n".toList }),
    ([Text.encode ".a.go.lhm-tmp".toList], .file { content := .text [], permissions := ⟨true⟩ })]
  workingDirectory := []

/-- A copy that was left over is read-only. Both jobs find it so before one of them removes it. -/
def leftoverRace : Race where
  jobs := rivals
  start := lockedCopy
  turns := [0, 0, 0, 1, 1, 1, 0, 1, 0, 1]

def strangeRace : Race where
  jobs := strangeNames.map siblingJob
  start := strangeFiles
  turns := crossing

def oldFile : FileSystem where
  entries := [([Text.encode "a.go".toList],
    .file { content := .text "code\n".toList, born := some ⟨0⟩ })]
  workingDirectory := []
  clock := some ⟨1000000000⟩

/-- A job has seen the birth time of the file before another one replaces it by a new one. -/
def oldRace : Race where
  jobs := rivals.map fun job =>
    { job with headers := some ⟨[(".go".toList, ["// %CreationYear%".toList])]⟩ }
  start := oldFile
  turns := [1, 1, 0, 0, 0, 0, 0, 0, 0, 1, 1, 1, 1, 1]

def races : List Race :=
  [lateRace, doubleRace, copyRace, lockedRace, leftoverRace, strangeRace, oldRace]

theorem unfair_races : ∀ race ∈ races, race.Unfair rivalEditor ⟨⟨0⟩, none⟩ := by decide +kernel

theorem copiesApart_rivals : CopiesApart siblings rivals where
  unnamed := by
    rintro job hjob l ⟨-, rfl⟩ other hother
    fin_cases hjob <;> fin_cases hother <;> decide +kernel
  own := by
    rintro job hjob l ⟨-, rfl⟩ other hother k ⟨-, rfl⟩ -
    fin_cases hjob <;> fin_cases hother <;> decide +kernel
  writable := by
    rintro job hjob l ⟨-, rfl⟩
    fin_cases hjob <;> decide +kernel

/-- The second job comes too late to rename the copy. -/
theorem batches_shared_rivals :
    Gate.ofLimit? rivalEditor.parallelism = some ⟨3, 0, 0, 0⟩ ∧
    (∀ job ∈ rivals, job.source = .onDisk) ∧ CopiesApart siblings rivals ∧
    ∃ b fs' results, FilesEdited rivalEditor ⟨⟨0⟩, none⟩ rivals siblings b fs' ∧
      FilesShared rivalEditor ⟨⟨0⟩, none⟩ rivals siblings b fs' results ∧
      b.changed = [(goPath, .inserted)] ∧
      b.failures = [ioFailure sameRival .notFound] := by
  have hgate : Gate.ofLimit? rivalEditor.parallelism = some ⟨3, 0, 0, 0⟩ := by rfl
  have hdisk : ∀ job ∈ rivals, job.source = .onDisk := by simp [rivals, rival, sameRival, siblingJob]
  have hunfair := unfair_races lateRace (by simp [races])
  obtain ⟨b, hedited, hchanged, hfailures, -⟩ := hunfair.exists_filesEdited hgate (by decide)
  obtain ⟨-, -, hshared⟩ :=
    batches_shared rivalEditor ⟨⟨0⟩, none⟩ siblings hgate hdisk copiesApart_rivals
  obtain ⟨results, hresults⟩ := hshared b _ hedited
  have hend : changes (lateRace.results rivalEditor ⟨⟨0⟩, none⟩) = [(goPath, .inserted)] ∧
      failures (lateRace.results rivalEditor ⟨⟨0⟩, none⟩) = [ioFailure sameRival .notFound] := by
    decide +kernel
  exact ⟨hgate, hdisk, copiesApart_rivals, b, _, results, hedited, hresults, hchanged.trans hend.1,
    hfailures.trans hend.2⟩

/-- Each of the races comes to an end that no order of its jobs comes to. In the first one, the copy is
gone when a job wants to rename it. -/
theorem not_files_serial : 2 ≤ rivalEditor.parallelism ∧
    (∃ b fs', FilesEdited rivalEditor ⟨⟨0⟩, none⟩ rivals siblings b fs' ∧
      b.failures = [ioFailure sameRival .notFound]) ∧
    ∀ race ∈ races, (∀ job ∈ race.jobs, job.source = .onDisk) ∧
      ∃ b fs', FilesEdited rivalEditor ⟨⟨0⟩, none⟩ race.jobs race.start b fs' ∧
        ¬SerialEnd rivalEditor ⟨⟨0⟩, none⟩ race.jobs race.start b fs' := by
  have hgate : Gate.ofLimit? rivalEditor.parallelism = some ⟨3, 0, 0, 0⟩ := by rfl
  have hsmall : ∀ race ∈ races, race.jobs.length ≤ rivalEditor.parallelism := by decide
  have hdisk : ∀ race ∈ races, ∀ job ∈ race.jobs, job.source = .onDisk := by decide +kernel
  refine ⟨by decide, ?_, fun race hrace => ⟨hdisk race hrace, ?_⟩⟩
  · have hlate : lateRace ∈ races := by simp [races]
    obtain ⟨b, hedited, -, hfailures, -⟩ :=
      (unfair_races lateRace hlate).exists_filesEdited hgate (hsmall lateRace hlate)
    have hend : failures (lateRace.results rivalEditor ⟨⟨0⟩, none⟩) =
        [ioFailure sameRival .notFound] := by decide +kernel
    exact ⟨b, _, hedited, hfailures.trans hend⟩
  · obtain ⟨b, hedited, -, -, hserial⟩ :=
      (unfair_races race hrace).exists_filesEdited hgate (hsmall race hrace)
    exact ⟨b, _, hedited, hserial⟩

end Examples

end Masthead.Editor
