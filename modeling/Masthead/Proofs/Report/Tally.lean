import Masthead.CommandLine.Run

namespace Masthead

namespace Editor

def Failure.report (f : Failure) : Path × FailureKind × Text := (f.path, f.kind, f.message)

/-- The paths to which an action was done. -/
def pathsOf {ε : Type} (a : Header.Action) (results : List (Except ε Edit)) : List Path :=
  results.filterMap fun
    | .ok edit => if edit.action = a then some edit.path else none
    | .error _ => none

section

variable {ε : Type} {a : Header.Action} {results : List (Except ε Edit)}

@[simp] theorem pathsOf_nil : pathsOf a ([] : List (Except ε Edit)) = [] := rfl

@[simp] theorem pathsOf_error (f : ε) : pathsOf a (.error f :: results) = pathsOf a results := rfl

@[simp] theorem pathsOf_map_error (fs : List ε) :
    pathsOf a (fs.map Except.error : List (Except ε Edit)) = [] := by
  induction fs with
  | nil => rfl
  | cons f fs ih => simpa using ih

theorem pathsOf_ok (edit : Edit) : pathsOf a (.ok edit :: results) =
    (if edit.action = a then [edit.path] else []) ++ pathsOf a results := by
  unfold pathsOf
  by_cases h : edit.action = a
  · rw [List.filterMap_cons_some (b := edit.path) (by simp [h]), if_pos h]
    rfl
  · rw [List.filterMap_cons_none (by simp [h]), if_neg h]
    rfl

theorem pathsOf_mapError {ε' : Type} (f : ε → ε') (results : List (Except ε Edit)) :
    pathsOf a (results.map (Except.mapError f)) = pathsOf a results := by
  rw [pathsOf, List.filterMap_map]
  congr 1
  funext result
  cases result <;> rfl

end

@[simp] theorem failures_ok (edit : Edit) (results : List (Except Failure Edit)) :
    failures (.ok edit :: results) = failures results := rfl

@[simp] theorem failures_error (f : Failure) (results : List (Except Failure Edit)) :
    failures (.error f :: results) = f :: failures results := rfl

theorem failures_map_error (fs : List Failure) : failures (fs.map Except.error) = fs := by
  induction fs with
  | nil => rfl
  | cons f fs ih => rw [List.map_cons, failures_error, ih]

@[simp] theorem changes_error (f : Failure) (results : List (Except Failure Edit)) :
    changes (.error f :: results) = changes results := rfl

theorem changes_ok (edit : Edit) (results : List (Except Failure Edit)) :
    changes (.ok edit :: results) =
      (if edit.action.isChange then [(edit.path, edit.action)] else []) ++ changes results := by
  unfold changes
  by_cases h : edit.action.isChange
  · rw [List.filterMap_cons_some (b := (edit.path, edit.action)) (by simp [h]), if_pos h]
    rfl
  · rw [List.filterMap_cons_none (by simp [h]), if_neg h]
    rfl

theorem length_eq_add (results : List (Except Failure Edit)) :
    results.length =
      (changes results).length + (failures results).length + (pathsOf .unchanged results).length := by
  induction results with
  | nil => rfl
  | cons result results ih =>
    cases result with
    | error f =>
      simp only [changes_error, failures_error, pathsOf_error, List.length_cons, ih]
      omega
    | ok edit =>
      simp only [changes_ok, failures_ok, pathsOf_ok, List.length_append, List.length_cons, ih]
      cases edit.action <;> simp [Header.Action.isChange] <;> omega

end Editor

namespace Report
open Editor CommandLine.Run Summary

/-- Every result recorded once. -/
def tally (results : List (Except Failure Edit)) : Summary := results.foldl recordResult .empty

theorem foldl_recordResult (s : Summary) (results : List (Except Failure Edit)) :
    results.foldl recordResult s =
      { inserted := s.inserted ++ pathsOf .inserted results
        replaced := s.replaced ++ pathsOf .replaced results
        removed := s.removed ++ pathsOf .removed results
        unchanged := s.unchanged + (pathsOf .unchanged results).length
        skipped := s.skipped + (failures results).countP (·.kind.isSkip)
        failures := s.failures ++ (failures results).filter (!·.kind.isSkip) } := by
  induction results generalizing s with
  | nil => simp [Editor.failures]
  | cons result results ih =>
    rw [List.foldl_cons, ih]
    cases result with
    | error f =>
      rw [recordResult, recordFailure]
      cases hskip : f.kind.isSkip with
      | false => simp [hskip]
      | true =>
        simp [hskip]
        omega
    | ok edit =>
      rw [recordResult]
      simp only [pathsOf_ok, failures_ok]
      cases edit.action with
      | unchanged =>
        simp [recordAction]
        omega
      | _ => simp [recordAction]

theorem tally_eq (results : List (Except Failure Edit)) :
    tally results =
      { inserted := pathsOf .inserted results
        replaced := pathsOf .replaced results
        removed := pathsOf .removed results
        unchanged := (pathsOf .unchanged results).length
        skipped := (failures results).countP (·.kind.isSkip)
        failures := (failures results).filter (!·.kind.isSkip) } := by
  rw [tally, foldl_recordResult]
  simp [Summary.empty]

theorem foldl_recordFailure (s : Summary) (fs : List Failure) :
    fs.foldl recordFailure s = (fs.map Except.error).foldl recordResult s := by
  rw [List.foldl_map]
  rfl

theorem summaryOfTexts_eq_tally (unreadable others : List Failure)
    (results : List (Except Failure Edit)) :
    summaryOfTexts unreadable results others =
      tally (unreadable.map .error ++ results ++ others.map .error) := by
  rw [summaryOfTexts, tally, foldl_recordFailure, foldl_recordFailure, List.foldl_append,
    List.foldl_append]

theorem foldl_recordAction (s : Summary) (results : List (Except Failure Edit)) :
    (changes results).foldl (fun s (path, action) => s.recordAction path action) s =
      { s with
        inserted := s.inserted ++ pathsOf .inserted results
        replaced := s.replaced ++ pathsOf .replaced results
        removed := s.removed ++ pathsOf .removed results } := by
  induction results generalizing s with
  | nil => simp [changes]
  | cons result results ih =>
    cases result with
    | error f =>
      rw [changes_error, ih]
      simp only [pathsOf_error]
    | ok edit =>
      rw [changes_ok, List.foldl_append, ih]
      simp only [pathsOf_ok]
      cases edit.action <;> simp [recordAction, Header.Action.isChange]

theorem foldl_recordFailure_failures (s : Summary) (fs : List Failure) :
    fs.foldl recordFailure s =
      { s with
        skipped := s.skipped + fs.countP (·.kind.isSkip)
        failures := s.failures ++ fs.filter (!·.kind.isSkip) } := by
  rw [foldl_recordFailure, foldl_recordResult, failures_map_error]
  simp

/-- What is left after the subtraction are the files that stay as they are, so the summary of edited
files is a tally as well. -/
theorem summaryOfFiles_eq_tally {b : FileBatch} {results : List (Except Failure Edit)}
    (hprocessed : b.processed = results.length) (hchanged : b.changed = changes results)
    (hfailures : b.failures = Editor.failures results) : summaryOfFiles b = tally results := by
  have hunchanged : b.processed - b.changed.length - b.failures.length =
      (pathsOf .unchanged results).length := by
    rw [hprocessed, hchanged, hfailures, length_eq_add results]
    omega
  rw [summaryOfFiles, tally_eq, hunchanged, hchanged, hfailures, foldl_recordAction,
    foldl_recordFailure_failures]
  simp [Summary.empty]

/-- The same paths, counts and reports, in any order. -/
structure Summary.Agrees (a b : Summary) : Prop where
  inserted : a.inserted.Perm b.inserted
  replaced : a.replaced.Perm b.replaced
  removed : a.removed.Perm b.removed
  unchanged : a.unchanged = b.unchanged
  skipped : a.skipped = b.skipped
  failures : (a.failures.map Failure.report).Perm (b.failures.map Failure.report)

theorem Summary.Agrees.trans {a b c : Summary} (h : a.Agrees b) (h' : b.Agrees c) : a.Agrees c where
  inserted := h.inserted.trans h'.inserted
  replaced := h.replaced.trans h'.replaced
  removed := h.removed.trans h'.removed
  unchanged := h.unchanged.trans h'.unchanged
  skipped := h.skipped.trans h'.skipped
  failures := h.failures.trans h'.failures

variable {results results' : List (Except Failure Edit)}

theorem report_failures (results : List (Except Failure Edit)) :
    (Editor.failures results).map Failure.report =
      (results.map (Except.mapError Failure.report)).filterMap fun
        | .ok _ => none
        | .error report => some report := by
  rw [Editor.failures, List.map_filterMap, List.filterMap_map]
  congr 1
  funext result
  cases result <;> rfl

/-- A tally reports nothing of failures but paths, kinds and messages. -/
theorem tally_agrees (h : (results.map (Except.mapError Failure.report)).Perm
    (results'.map (Except.mapError Failure.report))) : (tally results).Agrees (tally results') := by
  have hpaths : ∀ a, (pathsOf a results).Perm (pathsOf a results') := by
    intro a
    rw [← pathsOf_mapError Failure.report results, ← pathsOf_mapError Failure.report results']
    exact h.filterMap _
  have hreports : ((Editor.failures results).map Failure.report).Perm
      ((Editor.failures results').map Failure.report) := by
    rw [report_failures, report_failures]
    exact h.filterMap _
  have hskipped := hreports.countP_eq fun report => report.2.1.isSkip
  have hfailed := hreports.filter fun report => !report.2.1.isSkip
  rw [List.countP_map, List.countP_map] at hskipped
  rw [List.filter_map, List.filter_map] at hfailed
  rw [tally_eq, tally_eq]
  exact
    { inserted := hpaths .inserted
      replaced := hpaths .replaced
      removed := hpaths .removed
      unchanged := (hpaths .unchanged).length_eq
      skipped := hskipped
      failures := hfailed }

end Report
end Masthead
