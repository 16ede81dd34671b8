import Masthead.Editor.Basic

/-!
# Batches

Many jobs, of which at most a fixed number is worked on at once. Every job ends in a progress event,
and the events count up to the number of jobs.
-/
namespace Masthead.Editor

/-- Lets a limited number of workers in at once and keeps the highest number of those inside. -/
structure Gate where
  limit : Nat
  held : Nat
  inFlight : Nat
  peak : Nat
  deriving DecidableEq, Repr

namespace Gate

def maxPermits : Nat := 2305843009213693951

/-- A gate with at least one permit; there are no gates with too many. -/
def ofLimit? (limit : Nat) : Option Gate :=
  if max limit 1 ≤ maxPermits then some ⟨max limit 1, 0, 0, 0⟩ else none

/-- Takes a permit if one is free. -/
def acquire? (g : Gate) : Option Gate :=
  if g.held < g.limit then some { g with held := g.held + 1 } else none

def countUp (g : Gate) : Gate := { g with inFlight := g.inFlight + 1 }

def raisePeak (g : Gate) (seen : Nat) : Gate := { g with peak := max g.peak seen }

def countDown (g : Gate) : Gate := { g with inFlight := g.inFlight - 1 }

def release (g : Gate) : Gate := { g with held := g.held - 1 }

def enter? (g : Gate) : Option Gate :=
  g.acquire?.map fun g => g.countUp.raisePeak g.countUp.inFlight

def leave (g : Gate) : Gate := g.countDown.release

end Gate

/-- What is reported when a job has ended. -/
structure Progress where
  total : Nat
  processed : Nat
  path : Path
  content : Option Text
  deriving DecidableEq, Repr

inductive BatchError where
  | cancelled
  | gateTooWide
  deriving DecidableEq, Repr

def BatchError.message : BatchError → Text
  | cancelled => "Operation was cancelled".toList
  | gateTooWide => "a gate cannot have so many permits".toList

/-- A job that is worked on by a task, and the text to report of its result. -/
structure Worker (α : Type) where
  path : Path
  task : Task α
  report : α → Option Text

structure Finished (α : Type) where
  results : List α
  events : List Progress
  gate : Gate

/-- Sends the workers through the gate one after the other, of `total` workers in all. -/
def runWorkers {α : Type} (total : Nat) :
    (processed : Nat) → Gate → List (Worker α) → Task (Finished α)
  | _, gate, [] => pure ⟨[], [], gate⟩
  | processed, gate, w :: ws =>
    match gate.enter? with
    | none => pure ⟨[], [], gate⟩
    | some gate => do
      let result ← w.task
      let event : Progress := ⟨total, processed + 1, w.path, w.report result⟩
      let others ← runWorkers total (processed + 1) gate.leave ws
      return ⟨result :: others.results, event :: others.events, others.gate⟩

/-- Runs a batch unless it is cancelled, in which case no worker starts. -/
def runBatch {α : Type} (limit : Nat) (cancelled : Bool) (workers : List (Worker α)) :
    Task (Except BatchError (Finished α)) := do
  match Gate.ofLimit? limit with
  | none => return .error .gateTooWide
  | some gate =>
    if cancelled then return .error .cancelled
    else return .ok (← runWorkers workers.length 0 gate workers)

/-- The results of a batch of texts. Jobs of which no document can be made have none. -/
structure TextBatch where
  results : List (Except Failure Edit)
  events : List Progress
  peak : Nat

/-- The outcome of a batch of files. -/
structure FileBatch where
  processed : Nat
  changed : List (Path × Header.Action)
  failures : List Failure
  events : List Progress
  peak : Nat

def FileBatch.isSuccess (b : FileBatch) : Bool := b.failures.isEmpty

variable (e : Editor)

/-- Edits a text, unless no document can be made of it. -/
def editIfPossible (s : Header.Surroundings) (job : Job) :
    Task (Option (Except Failure Edit)) := do
  match ← e.document s job with
  | .error _ => return none
  | .ok d => return some (← apply job d)

def textWorker (s : Header.Surroundings) (job : Job) : Worker (Option (Except Failure Edit)) where
  path := job.path
  task := e.editIfPossible s job
  report
    | some (.ok edit) => some edit.content
    | _ => none

def fileWorker (s : Header.Surroundings) (job : Job) : Worker (Except Failure Edit) where
  path := job.path
  task := e.edit s job
  report _ := none

def editTexts (s : Header.Surroundings) (cancelled : Bool) (jobs : List Job) :
    Task (Except BatchError TextBatch) := do
  match ← runBatch e.parallelism cancelled (jobs.map (e.textWorker s)) with
  | .error cause => return .error cause
  | .ok finished =>
    return .ok ⟨finished.results.filterMap id, finished.events, finished.gate.peak⟩

/-- The edits that changed their file. -/
def changes (results : List (Except Failure Edit)) : List (Path × Header.Action) :=
  results.filterMap fun
    | .ok edit => if edit.action.isChange then some (edit.path, edit.action) else none
    | .error _ => none

def failures (results : List (Except Failure Edit)) : List Failure :=
  results.filterMap fun
    | .ok _ => none
    | .error failure => some failure

def editFiles (s : Header.Surroundings) (cancelled : Bool) (jobs : List Job) :
    Task (Except BatchError FileBatch) := do
  match ← runBatch e.parallelism cancelled (jobs.map (e.fileWorker s)) with
  | .error cause => return .error cause
  | .ok finished =>
    return .ok
      { processed := finished.results.length
        changed := changes finished.results
        failures := failures finished.results
        events := finished.events
        peak := finished.gate.peak }

end Masthead.Editor
