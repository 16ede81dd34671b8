import Masthead.CommandLine.Plan
import Masthead.Proofs.CommandLine.Arguments
import Masthead.Proofs.Config.Validity
import Masthead.Proofs.Editor.Pointwise
import Masthead.Proofs.Editor.Workers

/-!
# Accepted parallelism

The number of files to edit at once comes from the command line, or else from the configuration. It
reaches the gate of a batch as it was given. Any positive number of 64 bits is accepted, while there
are gates for the smaller ones only. With such a gate a batch works on every job, in whatever order its
steps are done; without one it works on none.
-/
namespace Masthead
open CommandLine

/-! ## What is accepted -/

namespace Config

variable {c : Config} {path : Path} {t : Text}

theorem of_asCount {v : Toml.Value} {n : ℕ} (h : asCount v = .ok n) : (n : ℤ) ≤ maxCount := by
  cases v with
  | integer m =>
    rw [asCount] at h
    split at h
    · rename_i hcount
      cases h
      omega
    · cases h
  | _ => cases h

theorem maxParallelism_of_ofTable {table : Toml.Table} (h : ofTable table = .ok c) :
    ∀ n ∈ c.maxParallelism, (n : ℤ) ≤ maxCount := by
  have hread : (table.get? "max-parallelism".toList).mapM asCount = .ok c.maxParallelism := by
    unfold ofTable at h
    cases hcount : (table.get? "max-parallelism".toList).mapM asCount with
    | error cause =>
      rw [hcount] at h
      cases h
    | ok count =>
      simp only [hcount, bind, Except.bind] at h
      split at h
      · cases h
      · split at h
        · cases h
        · cases h
          rfl
  intro n hn
  cases hfound : table.get? "max-parallelism".toList with
  | none =>
    rw [hfound, Option.mem_def.mp hn] at hread
    cases hread
  | some v =>
    rw [hfound, Option.mem_def.mp hn] at hread
    cases hcount : asCount v with
    | error cause => simp [hcount] at hread
    | ok m =>
      obtain rfl : m = n := by simpa [hcount] using hread
      exact of_asCount hcount

theorem maxParallelism_of_parse (h : parse path t = .ok c) :
    ∀ n ∈ c.maxParallelism, 1 ≤ n ∧ (n : ℤ) ≤ maxCount := by
  obtain ⟨table, written, htable, hvalid, rfl⟩ := exists_written_of_parse h
  intro n hn
  have hwritten : written.maxParallelism = some n := hn
  refine ⟨Nat.one_le_iff_ne_zero.mpr ?_, maxParallelism_of_ofTable htable n hn⟩
  rintro rfl
  unfold validate at hvalid
  cases hlanguages : validateLanguages 0 written.languages with
  | error cause =>
    rw [hlanguages] at hvalid
    cases hvalid
  | ok => simp [hlanguages, hwritten, bind, Except.bind] at hvalid

end Config

/-! ## Batches -/

namespace Editor

variable {α : Type} {e : Editor} {jobs : List Job} {fs fs' : FileSystem} {limit : ℕ}

/-- The events count every job once. -/
structure Counted (jobs : List Job) (events : List Progress) : Prop where
  numbers : events.map Progress.processed = List.range' 1 jobs.length
  totals : ∀ event ∈ events, event.total = jobs.length
  paths : (events.map Progress.path).Perm (jobs.map Job.path)

/-- There is a gate for the batches of an editor, which lets as many workers in as the editor wants.
However their steps fall between one another, the batches end, and they have worked on every job. -/
structure BatchesWork (e : Editor) (gate : Gate) : Prop where
  opens : Gate.ofLimit? e.parallelism = some gate
  limit : gate.limit = e.parallelism
  texts : ∀ s jobs fs, AlwaysEnds gate (jobs.map (e.textWorker s)) fs ∧
    (∃ b fs', TextsEdited e s jobs fs b fs') ∧
    ∀ b fs', TextsEdited e s jobs fs b fs' → Counted jobs b.events
  files : ∀ s jobs fs, AlwaysEnds gate (jobs.map (e.fileWorker s)) fs ∧
    (∃ b fs', FilesEdited e s jobs fs b fs') ∧
    ∀ b fs', FilesEdited e s jobs fs b fs' → b.processed = jobs.length ∧ Counted jobs b.events

/-- There is no gate for the batches of an editor, and no batch touches any file. -/
structure BatchesFail (e : Editor) : Prop where
  none_opens : Gate.ofLimit? e.parallelism = none
  texts : ∀ s cancelled jobs fs,
    (e.editTexts s cancelled jobs).run fs = (.error .gateTooWide, fs)
  files : ∀ s cancelled jobs fs,
    (e.editFiles s cancelled jobs).run fs = (.error .gateTooWide, fs)

theorem Completed.perm_workers {workers : List (Worker α)} {results : List (Worker α × α)}
    {shared : Shared} (h : Completed limit workers fs results shared) :
    (results.map Prod.fst).Perm workers := by
  have hkeyed : (workers.map fun w => (w, (w, ·) <$> w.task)).map Prod.snd =
      workers.map fun w => (w, ·) <$> w.task := by
    rw [List.map_map]
    rfl
  have hinterleaved := h.interleaved
  rw [← hkeyed] at hinterleaved
  have hyields : ∀ k ∈ workers.map fun w => (w, (w, ·) <$> w.task),
      k.2.Yields fun a => a.1 = k.1 := by
    intro k hk
    obtain ⟨w, -, rfl⟩ := List.mem_map.mp hk
    exact (Task.Yields.of_forall (P := fun _ => True) (fun _ => trivial) w.task).bind fun a _ => rfl
  have hperm := hinterleaved.of_yields hyields
  simpa [Function.comp_def] using hperm

theorem Completed.counted {worker : Job → Worker α} (hpath : ∀ job, (worker job).path = job.path)
    {results : List (Worker α × α)} {shared : Shared}
    (h : Completed limit (jobs.map worker) fs results shared) :
    results.length = jobs.length ∧ Counted jobs shared.events := by
  have hworkers := h.perm_workers
  have hlength : results.length = jobs.length := by simpa using hworkers.length_eq
  obtain ⟨hnumbers, htotals, hreports⟩ := h.recorded
  refine ⟨hlength, hlength ▸ hnumbers, by simpa using htotals, ?_⟩
  have hevents := hreports.map Prod.fst
  have hresults := hworkers.map Worker.path
  rw [List.map_map, List.map_map] at hevents hresults
  have hjobs : (fun job => (worker job).path) = Job.path := funext hpath
  rw [← hjobs]
  exact hevents.trans hresults

theorem batchesWork (h : e.parallelism ≤ Gate.maxPermits) (hpos : 1 ≤ e.parallelism) :
    BatchesWork e ⟨e.parallelism, 0, 0, 0⟩ := by
  have hlimit : max e.parallelism 1 = e.parallelism := Nat.max_eq_left hpos
  have hgate : Gate.ofLimit? e.parallelism = some ⟨e.parallelism, 0, 0, 0⟩ := by
    rw [Gate.ofLimit?, hlimit, if_pos h]
  refine ⟨hgate, rfl, fun s jobs fs => ?_, fun s jobs fs => ?_⟩
  · obtain ⟨results, shared, hcompleted⟩ := exists_completed hgate (jobs.map (e.textWorker s)) fs
    refine ⟨alwaysEnds hgate _ fs, ⟨_, _, results, shared, hcompleted, rfl, rfl⟩, ?_⟩
    rintro b fs' ⟨results, shared, hcompleted, rfl, rfl⟩
    exact (hcompleted.counted fun _ => rfl).2
  · obtain ⟨results, shared, hcompleted⟩ := exists_completed hgate (jobs.map (e.fileWorker s)) fs
    refine ⟨alwaysEnds hgate _ fs, ⟨_, _, results, shared, hcompleted, rfl, rfl⟩, ?_⟩
    rintro b fs' ⟨results, shared, hcompleted, rfl, rfl⟩
    exact hcompleted.counted fun _ => rfl

theorem batchesFail (h : ¬ e.parallelism ≤ Gate.maxPermits) : BatchesFail e := by
  have hwide : ¬ max e.parallelism 1 ≤ Gate.maxPermits := fun hmax =>
    h ((Nat.le_max_left _ _).trans hmax)
  exact ⟨if_neg hwide, fun s cancelled jobs fs => run_editTexts_of_wide hwide,
    fun s cancelled jobs fs => run_editFiles_of_wide hwide⟩

end Editor

/-! ## The editor of a run -/

namespace CommandLine
open Editor

variable {a : Arguments} {c : Config} {ts : List Text}

theorem maxPermits_eq : Gate.maxPermits = (2 ^ 64 - 1) >>> 3 := by decide

theorem parallelism_editorOf (ha : Arguments.parse ts = .ok a)
    (hc : c = .empty ∨ ∃ path t, Config.parse path t = .ok c) :
    (Plan.editorOf a c).parallelism =
        (a.maxParallelism.or c.maxParallelism).getD Editor.defaultParallelism ∧
      1 ≤ (Plan.editorOf a c).parallelism ∧ (Plan.editorOf a c).parallelism ≤ 2 ^ 64 - 1 := by
  have hlimit : Arguments.countLimit = 2 ^ 64 - 1 := by decide
  have hcount : Config.maxCount = 2 ^ 64 - 1 := by decide
  have hargument := Arguments.maxParallelism_of_parse ha
  have hconfig : ∀ n ∈ c.maxParallelism, 1 ≤ n ∧ n ≤ 2 ^ 64 - 1 := by
    rcases hc with rfl | ⟨path, t, hc⟩
    · nofun
    · intro n hn
      have := Config.maxParallelism_of_parse hc n hn
      omega
  have hwanted : 1 ≤ (a.maxParallelism.or c.maxParallelism).getD Editor.defaultParallelism ∧
      (a.maxParallelism.or c.maxParallelism).getD Editor.defaultParallelism ≤ 2 ^ 64 - 1 := by
    cases hasked : a.maxParallelism with
    | some n => exact hlimit ▸ hargument n hasked
    | none =>
      cases hgiven : c.maxParallelism with
      | some n => exact hconfig n hgiven
      | none => decide
  have heq : (Plan.editorOf a c).parallelism =
      max ((a.maxParallelism.or c.maxParallelism).getD Editor.defaultParallelism) 1 := rfl
  rw [heq, Nat.max_eq_left hwanted.1]
  exact ⟨rfl, hwanted⟩

/-- Every parallelism that is accepted reaches the editor as it was given, that of the command line
first. Up to an eighth of the highest number there are gates for it, and batches work on all their
jobs. Above that there are none, and batches do nothing at all. -/
theorem accepted_parallelism_works (ha : Arguments.parse ts = .ok a)
    (hc : c = .empty ∨ ∃ path t, Config.parse path t = .ok c) :
    let e := Plan.editorOf a c
    e.parallelism = (a.maxParallelism.or c.maxParallelism).getD Editor.defaultParallelism ∧
      1 ≤ e.parallelism ∧ e.parallelism ≤ 2 ^ 64 - 1 ∧
      if e.parallelism ≤ (2 ^ 64 - 1) >>> 3 then ∃ gate, BatchesWork e gate else BatchesFail e := by
  obtain ⟨heq, hpos, hle⟩ := parallelism_editorOf ha hc
  refine ⟨heq, hpos, hle, ?_⟩
  rw [← maxPermits_eq]
  split
  · rename_i hgate
    exact ⟨_, batchesWork hgate hpos⟩
  · rename_i hgate
    exact batchesFail hgate

section Examples

/-- Arguments that remove the header of a file, perhaps with a parallelism. -/
def removing (count : Option ℕ) : Arguments :=
  { Arguments.empty with paths := [goPath], remove := true, maxParallelism := count }

theorem parse_three :
    Arguments.parse ["--remove".toList, "-j3".toList, "a.go".toList] = .ok (removing (some 3)) := by
  decide +kernel

/-- One more than the highest number that there is a gate for. -/
def wideCount : ℕ := 2305843009213693952

theorem parse_wide : Arguments.parse
    ["--remove".toList, "-j".toList, "2305843009213693952".toList, "a.go".toList] =
      .ok (removing (some wideCount)) := by decide +kernel

theorem parse_wideConfig : Config.parse [] "max-parallelism = 2305843009213693952\n".toList =
    .ok ⟨some wideCount, [], []⟩ := by decide +kernel

theorem not_wideCount_le : ¬ wideCount ≤ (2 ^ 64 - 1) >>> 3 := by decide

/-- The command line wins over a configuration for which there is no gate. -/
theorem accepted_parallelism_works_three :
    Arguments.parse ["--remove".toList, "-j3".toList, "a.go".toList] = .ok (removing (some 3)) ∧
    Config.parse [] "max-parallelism = 2305843009213693952\n".toList =
      .ok ⟨some wideCount, [], []⟩ ∧
    ∃ gate, BatchesWork (Plan.editorOf (removing (some 3)) ⟨some wideCount, [], []⟩) gate := by
  obtain ⟨hthree, -, -, hworks⟩ :=
    accepted_parallelism_works parse_three (.inr ⟨_, _, parse_wideConfig⟩)
  have hthree : (Plan.editorOf (removing (some 3)) ⟨some wideCount, [], []⟩).parallelism = 3 := hthree
  rw [hthree, if_pos (by decide)] at hworks
  exact ⟨parse_three, parse_wideConfig, hworks⟩

/-- There are numbers that are accepted, by the command line or in a configuration, with which not even
a batch without jobs ends as it should. -/
theorem not_accepted_parallelism_works :
    (¬ ∀ (ts : List Text) (a : Arguments), Arguments.parse ts = .ok a →
      ∀ (s : Header.Surroundings) (jobs : List Job) (fs : FileSystem), ∃ b fs',
        ((Plan.editorOf a .empty).editTexts s false jobs).run fs = (.ok b, fs')) ∧
    ¬ ∀ (path : Path) (t : Text) (c : Config), Config.parse path t = .ok c →
      ∀ (s : Header.Surroundings) (jobs : List Job) (fs : FileSystem), ∃ b fs',
        ((Plan.editorOf (removing none) c).editFiles s false jobs).run fs = (.ok b, fs') := by
  have hfails : ∀ {a c}, (Plan.editorOf a c).parallelism = wideCount →
      BatchesFail (Plan.editorOf a c) := fun h =>
    batchesFail (by rw [h, maxPermits_eq]; exact not_wideCount_le)
  constructor
  · intro h
    obtain ⟨b, fs', hrun⟩ := h _ _ parse_wide ⟨⟨0⟩, none⟩ [] (oneFile [])
    rw [(hfails (by decide)).texts] at hrun
    cases congrArg Prod.fst hrun
  · intro h
    obtain ⟨b, fs', hrun⟩ := h _ _ _ parse_wideConfig ⟨⟨0⟩, none⟩ [] (oneFile [])
    rw [(hfails (by decide)).files] at hrun
    cases congrArg Prod.fst hrun

end Examples

end CommandLine
end Masthead
