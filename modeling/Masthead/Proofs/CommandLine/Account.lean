import Masthead.Proofs.CommandLine.DryRun

/-!
# Every file is accounted for

Whatever the file system holds and however the files of a run interfere, the summary records every
file once.
-/
namespace Masthead.CommandLine
open FileSystem Editor Report Run

/-- The summary counts every file once and names none twice. -/
structure Accounted (files : List Path) (recorded : List (Except Failure Edit))
    (summary : Summary) : Prop where
  tally : summary = tally recorded
  once : (recorded.map pathOfResult).Perm files
  named : ((summary.inserted ++ summary.replaced ++ summary.removed ++
    summary.failures.map Failure.path).map Path.components).Nodup
  total : summary.total = files.length

variable {p : Plan} {s : Header.Surroundings} {fs : FileSystem} {files : List Path}

theorem total_foldl (summary : Summary) (recorded : List (Except Failure Edit)) :
    (recorded.foldl recordResult summary).total = summary.total + recorded.length := by
  induction recorded generalizing summary with
  | nil => rfl
  | cons result recorded ih =>
    rw [List.foldl_cons, ih, List.length_cons]
    cases result with
    | error failure =>
      rw [recordResult, Summary.total_recordFailure]
      omega
    | ok edit =>
      rw [recordResult, Summary.total_recordAction]
      omega

theorem perm_pathsOf (recorded : List (Except Failure Edit)) :
    (pathsOf .inserted recorded ++ pathsOf .replaced recorded ++ pathsOf .removed recorded ++
      pathsOf .unchanged recorded ++ (Editor.failures recorded).map Failure.path).Perm
      (recorded.map pathOfResult) := by
  rw [List.perm_iff_count]
  intro path
  induction recorded with
  | nil => rfl
  | cons result recorded ih =>
    simp only [List.count_append, List.map_cons, List.count_cons] at ih ⊢
    cases result with
    | error failure =>
      have hpath : pathOfResult (.error failure) = failure.path := rfl
      simp only [hpath, pathsOf_error, failures_error, List.map_cons, List.count_cons]
      omega
    | ok edit =>
      have hpath : pathOfResult (.ok edit) = edit.path := rfl
      simp only [hpath, pathsOf_ok, failures_ok, List.count_append]
      cases edit.action <;> simp [List.count_cons] <;> omega

theorem accounted_tally {recorded : List (Except Failure Edit)}
    (honce : (recorded.map pathOfResult).Perm files) (hdistinct : (files.map Path.components).Nodup) :
    Accounted files recorded (tally recorded) where
  tally := rfl
  once := honce
  named := by
    have hall := ((perm_pathsOf recorded).trans honce).map Path.components
    have hfailures := (List.filter_sublist (l := Editor.failures recorded)
      (p := (!·.kind.isSkip))).map Failure.path
    rw [tally_eq]
    refine (hall.nodup_iff.mpr hdistinct).sublist (List.Sublist.map _ ?_)
    exact (List.sublist_append_left _ _).append hfailures
  total := by
    rw [Report.tally, total_foldl, ← honce.length_eq, List.length_map]
    exact Nat.zero_add _

theorem Edited.unchanged {results : List (Except Failure Edit)} {b : FileBatch} {fs' : FileSystem}
    (h : Edited p s fs files results b fs') :
    b.changed.length + b.failures.length ≤ b.processed ∧
      b.processed - b.changed.length - b.failures.length = (pathsOf .unchanged results).length := by
  cases h with
  | finished batch processed changed failures =>
    rw [processed, changed, failures, length_eq_add results]
    omega

theorem Edited.accounted {results : List (Except Failure Edit)} {b : FileBatch} {fs' : FileSystem}
    (h : Edited p s fs files results b fs') (hdistinct : (files.map Path.components).Nodup) :
    Accounted files results (summaryOfFiles b) := by
  rw [h.summary_eq]
  exact accounted_tally h.once hdistinct

theorem Checked.accounted {saveTo : Option Path} {recorded : List (Except Failure Edit)}
    {summary : Summary} {fs' : FileSystem} (h : Checked p s saveTo fs files recorded summary fs')
    (hdistinct : (files.map Path.components).Nodup) : Accounted files recorded summary := by
  obtain ⟨hperm, rfl, -⟩ := h.recorded_perm
  have honce := hperm.map pathOfResult
  have hpaths : pathOfResult ∘ recordOf p s fs = id := funext (path_of_recordOf p s fs)
  rw [List.map_map, hpaths, List.map_id] at honce
  exact accounted_tally honce hdistinct

/-- Both kinds of runs account for every file once, whatever the files are and however the edits of
different files interfere. -/
theorem runs_account (hdistinct : (files.map Path.components).Nodup) :
    (∃ recorded summary fs', Checked p s none fs files recorded summary fs') ∧
    (∃ results b fs', Edited p s fs files results b fs') ∧
    (∀ saveTo recorded summary fs', Checked p s saveTo fs files recorded summary fs' →
      Accounted files recorded summary) ∧
    ∀ results b fs', Edited p s fs files results b fs' →
      Accounted files results (summaryOfFiles b) ∧
      b.changed.length + b.failures.length ≤ b.processed ∧
      b.processed - b.changed.length - b.failures.length = (pathsOf .unchanged results).length := by
  refine ⟨exists_checked p s fs files, exists_edited p s fs files, ?_, ?_⟩
  · exact fun saveTo recorded summary fs' h => h.accounted hdistinct
  · exact fun results b fs' h => ⟨h.accounted hdistinct, h.unchanged⟩

/-- A file that changes, one in an unknown language and one that does not exist. -/
theorem runs_account_threeFiles :
    ([goPath, txtPath, gonePath].map Path.components).Nodup ∧
    (∃ recorded summary fs', Checked goPlan ⟨⟨0⟩, none⟩ none twoFiles
      [goPath, txtPath, gonePath] recorded summary fs' ∧ summary.total = 3) ∧
    ∃ results b fs', Edited goPlan ⟨⟨0⟩, none⟩ twoFiles
      [goPath, txtPath, gonePath] results b fs' ∧
      (summaryOfFiles b).total = 3 ∧
      (results.map pathOfResult).Perm [goPath, txtPath, gonePath] := by
  have hdistinct : ([goPath, txtPath, gonePath].map Path.components).Nodup := by
    decide +kernel
  obtain ⟨⟨recorded, summary, fs', hchecked⟩, ⟨results, b, edited, hedited⟩, hdry, hmodified⟩ :=
    @runs_account goPlan ⟨⟨0⟩, none⟩ twoFiles _ hdistinct
  have hfiles := (hmodified _ _ _ hedited).1
  exact ⟨hdistinct, ⟨_, _, _, hchecked, (hdry _ _ _ _ hchecked).total⟩, _, _, _, hedited,
    hfiles.total, hfiles.once⟩

/-! ## Runs of the program -/

/-- The collected files are in ascending order, whatever the paths stand for. -/
theorem yields_collectInto (e : Editor) {found : List Path} (h : Path.Ascending found)
    (paths : List Path) : (collectInto e found paths).Yields Path.Ascending := by
  induction paths generalizing found with
  | nil => exact h
  | cons path paths ih =>
    refine (Task.Yields.of_forall (fun _ => trivial) (filesAt e path)).bind fun here _ => ih ?_
    induction here generalizing found with
    | nil => exact h
    | cons file here ihere => exact ihere (h.insertOrdered file)

theorem total_of_run {a : Arguments} {env : Environment} {r : Run} {fs' : FileSystem}
    {summary : Summary} (h : (run a env).run fs = (r, fs'))
    (hended : r.treatment.ending = .finished summary) : r.fileCount = some summary.total := by
  unfold CommandLine.run at h
  rw [Task.run_bind] at h
  obtain ⟨⟨notes, made⟩, afterMaking, hmade⟩ : ∃ outcome afterMaking,
      (Plan.make a env).run fs = (outcome, afterMaking) := ⟨_, _, rfl⟩
  rw [hmade] at h
  cases made with
  | error cause =>
    obtain ⟨rfl, -⟩ := Prod.mk.inj h
    cases hended
  | ok p =>
    dsimp only at h
    rw [Task.run_bind] at h
    have hdistinct : ((((collect p.editor a.paths).run afterMaking).1).map Path.components).Nodup :=
      ((yields_collectInto p.editor List.Pairwise.nil a.paths).run afterMaking).nodup_components
    cases hmodify : a.modify with
    | true =>
      rw [hmodify, if_pos rfl, Task.run_bind] at h
      obtain ⟨rfl, -⟩ := Prod.mk.inj h
      obtain ⟨results, b, hedited, rfl⟩ := edited_of_run rfl hended
      exact congrArg some (hedited.accounted hdistinct).total.symm
    | false =>
      rw [hmodify, if_neg Bool.false_ne_true, Task.run_bind] at h
      obtain ⟨rfl, -⟩ := Prod.mk.inj h
      obtain ⟨recorded, hchecked⟩ := checked_of_run rfl hended
      exact congrArg some (hchecked.accounted hdistinct).total.symm

end Masthead.CommandLine
