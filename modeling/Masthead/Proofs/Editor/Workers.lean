import Masthead.Editor.Batch
import Masthead.Proofs.Task.Interleaving

namespace Masthead.Editor

variable {α : Type} {fs : FileSystem}

theorem Gate.exists_enter? {gate : Gate} (h : gate.held < gate.limit) :
    ∃ inside, gate.enter? = some inside ∧ inside.leave.held = gate.held ∧
      inside.leave.limit = gate.limit := by
  have henter : gate.enter? = some (({ gate with held := gate.held + 1 }.countUp).raisePeak
      { gate with held := gate.held + 1 }.countUp.inFlight) := by
    rw [enter?, acquire?, if_pos h]
    rfl
  exact ⟨_, henter, rfl, rfl⟩

theorem run_runWorkers_cons {gate inside : Gate} (hinside : gate.enter? = some inside)
    (total processed : Nat) (w : Worker α) (workers : List (Worker α)) (fs : FileSystem) :
    (runWorkers total processed gate (w :: workers)).run fs =
      let (a, after) := w.task.run fs
      let (others, last) := (runWorkers total (processed + 1) inside.leave workers).run after
      (⟨a :: others.results, ⟨total, processed + 1, w.path, w.report a⟩ :: others.events, others.gate⟩,
        last) := by
  rw [runWorkers, hinside]
  dsimp only
  rw [Task.run_bind, Task.run_bind]
  rfl

theorem interleaved_runWorkers {gate : Gate} (hgate : gate.held < gate.limit) (total processed : Nat)
    (workers : List (Worker α)) (fs : FileSystem) :
    Task.Interleaved (workers.map Worker.task) fs
      ((runWorkers total processed gate workers).run fs).1.results
      ((runWorkers total processed gate workers).run fs).2 := by
  induction workers generalizing processed gate fs with
  | nil => exact .nil
  | cons w workers ih =>
    obtain ⟨inside, hinside, hheld, hlimit⟩ := Gate.exists_enter? hgate
    have hleave : inside.leave.held < inside.leave.limit := by omega
    have hothers := ih hleave (processed + 1) (w.task.run fs).2
    rw [List.map_cons, run_runWorkers_cons hinside]
    exact hothers.run_first w.task

theorem exists_run_runBatch {limit : Nat} (hlimit : max limit 1 ≤ Gate.maxPermits)
    (workers : List (Worker α)) (fs : FileSystem) :
    ∃ finished fs', (runBatch limit false workers).run fs = (.ok finished, fs') ∧
      Task.Interleaved (workers.map Worker.task) fs finished.results fs' := by
  have hgate : Gate.ofLimit? limit = some ⟨max limit 1, 0, 0, 0⟩ := if_pos hlimit
  unfold runBatch
  rw [hgate]
  dsimp only
  rw [if_neg Bool.false_ne_true, Task.run_bind]
  refine ⟨_, _, rfl, interleaved_runWorkers ?_ _ _ _ _⟩
  exact Nat.lt_of_lt_of_le Nat.zero_lt_one (Nat.le_max_right limit 1)

theorem run_runBatch_of_wide {limit : Nat} (hlimit : ¬max limit 1 ≤ Gate.maxPermits)
    (cancelled : Bool) (workers : List (Worker α)) (fs : FileSystem) :
    (runBatch limit cancelled workers).run fs = (.error .gateTooWide, fs) := by
  rw [runBatch, Gate.ofLimit?, if_neg hlimit]
  rfl

section Wide

variable {e : Editor} (he : ¬max e.parallelism 1 ≤ Gate.maxPermits) {s : Header.Surroundings}
include he

theorem run_editTexts_of_wide {cancelled : Bool} {jobs : List Job} :
    (e.editTexts s cancelled jobs).run fs = (.error .gateTooWide, fs) := by
  rw [editTexts, Task.run_bind, run_runBatch_of_wide he]
  rfl

theorem run_editFiles_of_wide {cancelled : Bool} {jobs : List Job} :
    (e.editFiles s cancelled jobs).run fs = (.error .gateTooWide, fs) := by
  rw [editFiles, Task.run_bind, run_runBatch_of_wide he]
  rfl

end Wide

variable {e : Editor} (he : max e.parallelism 1 ≤ Gate.maxPermits) (s : Header.Surroundings)
include he

theorem exists_run_editTexts (jobs : List Job) (fs : FileSystem) :
    ∃ b outcomes fs', (e.editTexts s false jobs).run fs = (.ok b, fs') ∧
      Task.Interleaved (jobs.map (e.editIfPossible s)) fs outcomes fs' ∧
      b.results = outcomes.filterMap id := by
  obtain ⟨finished, fs', hrun, h⟩ := exists_run_runBatch he (jobs.map (e.textWorker s)) fs
  unfold editTexts
  rw [Task.run_bind, hrun]
  refine ⟨_, finished.results, fs', rfl, ?_, rfl⟩
  rwa [List.map_map] at h

theorem exists_run_editFiles (jobs : List Job) (fs : FileSystem) :
    ∃ b results fs', (e.editFiles s false jobs).run fs = (.ok b, fs') ∧
      Task.Interleaved (jobs.map (e.edit s)) fs results fs' ∧
      b.processed = results.length ∧ b.changed = changes results ∧
      b.failures = failures results := by
  obtain ⟨finished, fs', hrun, h⟩ := exists_run_runBatch he (jobs.map (e.fileWorker s)) fs
  unfold editFiles
  rw [Task.run_bind, hrun]
  refine ⟨_, finished.results, fs', rfl, ?_, rfl, rfl, rfl⟩
  rwa [List.map_map] at h

end Masthead.Editor
