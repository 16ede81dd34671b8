import Masthead.CommandLine.Collect
import Masthead.CommandLine.Plan
import Masthead.Editor.Batch
import Masthead.Report.Diff
import Masthead.Report.Summary

/-!
# Runs

A run edits the files, or it is dry and only finds out what editing would do to them. Either way it
ends in a summary that accounts for every file.
-/
namespace Masthead.CommandLine

inductive Ending where
  | stopped (cause : RunError)
  | interrupted (cause : Editor.BatchError)
  | finished (summary : Report.Summary)
  deriving DecidableEq, Repr

structure Treatment where
  events : List Editor.Progress
  diffs : List Text
  ending : Ending
  deriving DecidableEq, Repr

structure Run where
  notes : List Note
  /-- The number of files, if the run came to know it. -/
  fileCount : Option Nat
  treatment : Treatment
  deriving DecidableEq, Repr

namespace Run

/-! ## Editing the files -/

/-- What became of the files of a batch. Those that neither changed nor failed are unchanged. -/
def summaryOfFiles (b : Editor.FileBatch) : Report.Summary :=
  let unchanged := b.processed - b.changed.length - b.failures.length
  let changed := b.changed.foldl (fun s (path, action) => s.recordAction path action)
    { Report.Summary.empty with unchanged }
  b.failures.foldl Report.Summary.recordFailure changed

def modify (p : Plan) (s : Header.Surroundings) (cancelled : Bool) (files : List Path) :
    Task Treatment := do
  match ← p.editor.editFiles s cancelled (files.map (p.job · .onDisk)) with
  | .error cause => return ⟨[], [], .interrupted cause⟩
  | .ok b => return ⟨b.events, [], .finished (summaryOfFiles b)⟩

/-! ## Dry runs -/

/-- The failure of a file that could not be read. -/
def readFailure (path : Path) (cause : IoError) : Editor.Failure :=
  { path, content := none
    kind := if cause = .notFound then .fileNotFound else .miscellaneous
    message := "Failed to read ".toList ++ path.shown ++ ": ".toList ++ cause.message }

def readJobs (p : Plan) : List Path → Task (List (Except Editor.Failure Editor.Job))
  | [] => return []
  | path :: paths => do
    let job := match ← Task.read path with
      | .ok t => .ok (p.job path (.held t))
      | .error cause => .error (readFailure path cause)
    return job :: (← readJobs p paths)

def readable (jobs : List (Except Editor.Failure Editor.Job)) : List Editor.Job :=
  jobs.filterMap fun
    | .ok job => some job
    | .error _ => none

def unreadable (jobs : List (Except Editor.Failure Editor.Job)) : List Editor.Failure :=
  jobs.filterMap fun
    | .ok _ => none
    | .error failure => some failure

def recordResult (s : Report.Summary) : Except Editor.Failure Editor.Edit → Report.Summary
  | .ok edit => s.recordAction edit.path edit.action
  | .error failure => s.recordFailure failure

def pathOfResult : Except Editor.Failure Editor.Edit → Path
  | .ok edit => edit.path
  | .error failure => failure.path

/-- The failures of those jobs that have no result, since no document can be made of them. -/
def leftOut (p : Plan) (s : Header.Surroundings) (seen : List Path) :
    List Editor.Job → Task (List Editor.Failure)
  | [] => return []
  | job :: jobs => do
    if job.path ∈ seen then leftOut p s seen jobs
    else match ← p.editor.document s job with
      | .error cause => return cause.failure none :: (← leftOut p s seen jobs)
      | .ok _ => leftOut p s seen jobs

/-- The diffs between the texts of jobs and what editing makes of them. -/
def diffsOf (jobs : List Editor.Job) (results : List (Except Editor.Failure Editor.Edit)) :
    List Text :=
  results.filterMap fun
    | .error _ => none
    | .ok edit =>
      if edit.action.isChange then
        (jobs.find? (·.path = edit.path)).map fun job =>
          Report.renderDiff edit.path (job.content?.getD []) edit.content
      else none

/-- Appends diffs to a file until one cannot be saved. Returns those that were tried. -/
def saveDiffs (path : Path) : List Text → Task (List Text × Except RunError Unit)
  | [] => return ([], .ok ())
  | diff :: diffs => do
    match ← Task.append path [] with
    | .error cause => return ([diff], .error (.openDiffFile path cause))
    | .ok _ =>
      match ← Task.append path diff with
      | .error cause => return ([diff], .error (.writeDiffFile path cause))
      | .ok _ =>
        let (tried, result) ← saveDiffs path diffs
        return (diff :: tried, result)

/-- What became of the texts of a batch, with the failures of the files that are not in it. -/
def summaryOfTexts (unreadable : List Editor.Failure)
    (results : List (Except Editor.Failure Editor.Edit)) (leftOut : List Editor.Failure) :
    Report.Summary :=
  leftOut.foldl Report.Summary.recordFailure
    (results.foldl recordResult
      (unreadable.foldl Report.Summary.recordFailure Report.Summary.empty))

/-- Edits the texts of the files, which stay as they are. -/
def check (p : Plan) (s : Header.Surroundings) (cancelled : Bool) (saveTo : Option Path)
    (files : List Path) : Task Treatment := do
  let jobs ← readJobs p files
  match ← p.editor.editTexts s cancelled (readable jobs) with
  | .error cause => return ⟨[], [], .interrupted cause⟩
  | .ok b =>
    let diffs := diffsOf (readable jobs) b.results
    let (tried, saved) ← match saveTo with
      | some path => saveDiffs path diffs
      | none => pure (diffs, .ok ())
    match saved with
    | .error cause => return ⟨b.events, tried, .stopped cause⟩
    | .ok _ =>
      let others ← leftOut p s (b.results.map pathOfResult) (readable jobs)
      return ⟨b.events, tried, .finished (summaryOfTexts (unreadable jobs) b.results others)⟩

end Run

def run (a : Arguments) (env : Environment) : Task Run := do
  match ← Plan.make a env with
  | (notes, .error cause) => return ⟨notes, none, [], [], .stopped cause⟩
  | (notes, .ok p) =>
    let files ← collect p.editor a.paths
    let treatment ←
      if a.modify then Run.modify p env.surroundings false files
      else Run.check p env.surroundings false a.saveDiff files
    return ⟨notes, some files.length, treatment⟩

end Masthead.CommandLine
