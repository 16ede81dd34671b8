import Mathlib.Logic.Hydra
import Masthead.Proofs.Editor.Workers

/-!
# Batches in any order of steps

The workers of a batch pass the gate, do their tasks and report, one small step at a time and in any
order. However the steps of different workers fall between one another, no batch gets stuck, every
batch ends, and its events count up to the number of workers.
-/
namespace Masthead.Editor

variable {α : Type}

/-- How far a worker has come. -/
inductive Stage (α : Type) where
  | waiting
  | admitted
  | counted (seen : ℕ)
  | working (task : Task α)
  /-- The worker has the counter of ended jobs to itself. -/
  | reporting (result : α)
  | numbered (result : α)
  | announced (result : α)
  | leaving (result : α)
  | discounted (result : α)
  | ended (result : α)

/-- What the workers of a batch share: the gate, the counter of ended jobs with its lock, the events
that were sent, and the file system. -/
structure Shared where
  gate : Gate
  locked : Bool
  processed : ℕ
  events : List Progress
  fs : FileSystem

/-- One step of one worker, in a batch of `total` workers. -/
inductive Worker.Step (w : Worker α) (total : ℕ) : Stage α → Shared → Stage α → Shared → Prop
  | acquire {sh : Shared} {gate : Gate} (h : sh.gate.acquire? = some gate) :
      Step w total .waiting sh .admitted { sh with gate }
  | countUp {sh : Shared} :
      Step w total .admitted sh (.counted sh.gate.countUp.inFlight)
        { sh with gate := sh.gate.countUp }
  | raisePeak {sh : Shared} {seen : ℕ} :
      Step w total (.counted seen) sh (.working w.task) { sh with gate := sh.gate.raisePeak seen }
  | operate {sh : Shared} {op : FileOperation} {next : op.Answer → Task α} :
      Step w total (.working (.call op next)) sh (.working (next (op.apply sh.fs).1))
        { sh with fs := (op.apply sh.fs).2 }
  | lock {sh : Shared} {a : α} (h : sh.locked = false) :
      Step w total (.working (.done a)) sh (.reporting a) { sh with locked := true }
  | count {sh : Shared} {a : α} :
      Step w total (.reporting a) sh (.numbered a) { sh with processed := sh.processed + 1 }
  | announce {sh : Shared} {a : α} :
      Step w total (.numbered a) sh (.announced a)
        { sh with events := sh.events ++ [⟨total, sh.processed, w.path, w.report a⟩] }
  | unlock {sh : Shared} {a : α} :
      Step w total (.announced a) sh (.leaving a) { sh with locked := false }
  | countDown {sh : Shared} {a : α} :
      Step w total (.leaving a) sh (.discounted a) { sh with gate := sh.gate.countDown }
  | release {sh : Shared} {a : α} :
      Step w total (.discounted a) sh (.ended a) { sh with gate := sh.gate.release }

/-- A batch on its way. The results that were collected stand with their workers. -/
structure Batch (α : Type) where
  workers : List (Worker α × Stage α)
  shared : Shared
  results : List (Worker α × α)

namespace Batch

def start (gate : Gate) (workers : List (Worker α)) (fs : FileSystem) : Batch α where
  workers := workers.map (·, .waiting)
  shared := ⟨gate, false, 0, [], fs⟩
  results := []

/-- Some worker makes a step, or the result of one that has ended is collected. -/
inductive Step (total : ℕ) : Batch α → Batch α → Prop
  | work {front back : List (Worker α × Stage α)} {w : Worker α} {stage stage' : Stage α}
      {sh sh' : Shared} {results : List (Worker α × α)} (h : w.Step total stage sh stage' sh') :
      Step total ⟨front ++ (w, stage) :: back, sh, results⟩
        ⟨front ++ (w, stage') :: back, sh', results⟩
  | collect {front back : List (Worker α × Stage α)} {w : Worker α} {a : α} {sh : Shared}
      {results : List (Worker α × α)} :
      Step total ⟨front ++ (w, .ended a) :: back, sh, results⟩
        ⟨front ++ back, sh, results ++ [(w, a)]⟩

/-- The batch gets to a state, in some order of steps. -/
abbrev Reaches (total : ℕ) : Batch α → Batch α → Prop := Relation.ReflTransGen (Step total)

end Batch

/-! ## Tasks side by side -/

def Stage.task (w : Worker α) : Stage α → Task α
  | waiting | admitted | counted _ => w.task
  | working t => t
  | reporting a | numbered a | announced a | leaving a | discounted a | ended a => .done a

theorem Worker.Step.task_cases {w : Worker α} {total : ℕ} {stage stage' : Stage α} {sh sh' : Shared}
    (h : w.Step total stage sh stage' sh') :
    (∃ op next, stage.task w = .call op next ∧ stage'.task w = next (op.apply sh.fs).1 ∧
      sh'.fs = (op.apply sh.fs).2) ∨ stage'.task w = stage.task w ∧ sh'.fs = sh.fs := by
  cases h with
  | operate => exact .inl ⟨_, _, rfl, rfl, rfl⟩
  | _ => exact .inr ⟨rfl, rfl⟩

/-- The rest of a worker's task, with the worker beside the result. -/
def remaining (ws : Worker α × Stage α) : Task (Worker α × α) := (ws.1, ·) <$> ws.2.task ws.1

theorem Batch.Reaches.interleaved {total : ℕ} {b last : Batch α} (h : Reaches total b last)
    (hlast : last.workers = []) : ∃ results, last.results = b.results ++ results ∧
      Task.Interleaved (b.workers.map remaining) b.shared.fs results last.shared.fs := by
  induction h using Relation.ReflTransGen.head_induction_on with
  | refl =>
    rw [hlast]
    exact ⟨[], (List.append_nil _).symm, .nil⟩
  | head hstep hrest ih =>
    obtain ⟨results, hresults, hothers⟩ := ih
    cases hstep with
    | @work front back w stage stage' sh sh' collected hwork =>
      refine ⟨results, hresults, ?_⟩
      rw [List.map_append, List.map_cons] at hothers ⊢
      obtain ⟨op, next, htask, htask', hfs⟩ | ⟨htask, hfs⟩ := hwork.task_cases
      · have hcall : remaining (w, stage) = .call op fun answer => (w, ·) <$> next answer := by
          rw [remaining, htask]
          rfl
        have hnext : remaining (w, stage') = (w, ·) <$> next (op.apply sh.fs).1 := by
          rw [remaining, htask']
        dsimp only at hothers ⊢
        rw [hcall]
        rw [hnext, hfs] at hothers
        exact .step hothers
      · have hsame : remaining (w, stage') = remaining (w, stage) := by
          rw [remaining, remaining, htask]
        dsimp only at hothers ⊢
        rwa [hsame, hfs] at hothers
    | @collect front back w a sh collected =>
      refine ⟨(w, a) :: results, ?_, ?_⟩
      · rw [hresults, List.append_assoc]
        rfl
      · rw [List.map_append] at hothers
        rw [List.map_append, List.map_cons]
        exact .collect hothers

/-! ## What holds all the time -/

namespace Stage

def permits : Stage α → ℕ
  | waiting | ended _ => 0
  | _ => 1

/-- The worker has the lock. -/
def inside : Stage α → ℕ
  | reporting _ | numbered _ | announced _ => 1
  | _ => 0

/-- The worker's job is counted, but there is no event for it yet. -/
def pending : Stage α → ℕ
  | numbered _ => 1
  | _ => 0

def report? (w : Worker α) : Stage α → Option (Path × Option Text)
  | announced a | leaving a | discounted a | ended a => some (w.path, w.report a)
  | _ => none

theorem pending_le_inside (stage : Stage α) : stage.pending ≤ stage.inside := by
  cases stage <;> simp [pending, inside]

end Stage

namespace Worker.Step

variable {w : Worker α} {total : ℕ} {stage stage' : Stage α} {sh sh' : Shared}

theorem lock_balance (h : w.Step total stage sh stage' sh') (hlock : stage.inside ≤ sh.locked.toNat) :
    sh'.locked.toNat + stage.inside = sh.locked.toNat + stage'.inside := by
  cases h with
  | lock h => simp [h, Stage.inside]
  | unlock =>
    have hlocked : sh.locked = true := by
      cases hl : sh.locked with
      | true => rfl
      | false => simp [hl, Stage.inside] at hlock
    simp [hlocked, Stage.inside]
  | _ => rfl

theorem permit_balance (h : w.Step total stage sh stage' sh') (hheld : stage.permits ≤ sh.gate.held) :
    sh'.gate.held + stage.permits = sh.gate.held + stage'.permits ∧
      sh'.gate.limit = sh.gate.limit := by
  cases h with
  | @acquire sh gate h =>
    unfold Gate.acquire? at h
    split at h
    · cases h
      exact ⟨rfl, rfl⟩
    · cases h
  | release => exact ⟨Nat.sub_add_cancel hheld, rfl⟩
  | _ => exact ⟨rfl, rfl⟩

theorem processed_balance (h : w.Step total stage sh stage' sh') :
    sh'.processed + sh.events.length + stage.pending =
      sh.processed + sh'.events.length + stage'.pending := by
  cases h with
  | count => exact Nat.add_right_comm sh.processed 1 sh.events.length
  | @announce sh a => rw [List.length_append]; rfl
  | _ => rfl

theorem event_cases (h : w.Step total stage sh stage' sh') :
    (∃ a, stage = .numbered a ∧ stage' = .announced a ∧
        sh'.events = sh.events ++ [⟨total, sh.processed, w.path, w.report a⟩]) ∨
      sh'.events = sh.events ∧ stage'.report? w = stage.report? w := by
  cases h with
  | announce => exact .inl ⟨_, rfl, rfl, rfl⟩
  | _ => exact .inr ⟨rfl, rfl⟩

end Worker.Step

namespace Batch

/-- A number that is summed up over the workers. -/
def count (f : Stage α → ℕ) (workers : List (Worker α × Stage α)) : ℕ :=
  (workers.map fun ws => f ws.2).sum

@[simp] theorem count_middle (f : Stage α → ℕ) (front back : List (Worker α × Stage α))
    (w : Worker α) (stage : Stage α) :
    count f (front ++ (w, stage) :: back) = f stage + count f (front ++ back) := by
  simp only [count, List.map_append, List.map_cons, List.sum_append, List.sum_cons]
  omega

theorem count_eq_zero {f : Stage α → ℕ} {workers : List (Worker α × Stage α)}
    (h : ∀ ws ∈ workers, f ws.2 = 0) : count f workers = 0 := by
  refine List.sum_eq_zero fun n hn => ?_
  obtain ⟨ws, hws, rfl⟩ := List.mem_map.mp hn
  exact h ws hws

theorem count_le {f g : Stage α → ℕ} (h : ∀ stage, f stage ≤ g stage)
    (workers : List (Worker α × Stage α)) : count f workers ≤ count g workers := by
  induction workers with
  | nil => exact le_rfl
  | cons ws workers ih => exact Nat.add_le_add (h ws.2) ih

/-- What was reported of the workers' jobs, those first whose results were not collected yet. -/
def reports (workers : List (Worker α × Stage α)) (results : List (Worker α × α)) :
    List (Path × Option Text) :=
  workers.filterMap (fun ws => ws.2.report? ws.1) ++
    results.map fun wa => (wa.1.path, wa.1.report wa.2)

theorem reports_middle (front back : List (Worker α × Stage α)) (w : Worker α) (stage : Stage α)
    (results : List (Worker α × α)) : (reports (front ++ (w, stage) :: back) results).Perm
      ((stage.report? w).toList ++ reports (front ++ back) results) := by
  unfold reports
  rw [List.filterMap_append, List.filterMap_append]
  cases h : stage.report? w with
  | none =>
    rw [@List.filterMap_cons_none _ _ _ (w, stage) _ h]
    exact .refl _
  | some report =>
    rw [@List.filterMap_cons_some _ _ _ (w, stage) _ _ h]
    exact List.perm_middle.append_right _

/-- The permits, the lock and the counter agree with the stages of the workers. -/
structure Balanced (limit : ℕ) (b : Batch α) : Prop where
  limit : b.shared.gate.limit = limit
  held : b.shared.gate.held = count Stage.permits b.workers
  lock : b.shared.locked.toNat = count Stage.inside b.workers
  processed : b.shared.processed = b.shared.events.length + count Stage.pending b.workers

/-- The events count up from one, and each of them reports another worker's job. -/
structure Recorded (total : ℕ) (b : Batch α) : Prop where
  numbers : b.shared.events.map Progress.processed = List.range' 1 b.shared.events.length
  totals : ∀ event ∈ b.shared.events, event.total = total
  reported : (b.shared.events.map fun event => (event.path, event.content)).Perm
    (reports b.workers b.results)

section Start

variable (gate : Gate) (workers : List (Worker α)) (fs : FileSystem)

theorem balanced_start (hheld : gate.held = 0) : (start gate workers fs).Balanced gate.limit := by
  have hnone : ∀ f : Stage α → ℕ, f .waiting = 0 → count f (start gate workers fs).workers = 0 := by
    refine fun f hf => count_eq_zero fun ws hws => ?_
    obtain ⟨w, -, rfl⟩ := List.mem_map.mp hws
    exact hf
  exact ⟨rfl, hheld.trans (hnone _ rfl).symm, (hnone Stage.inside rfl).symm,
    (hnone Stage.pending rfl).symm ▸ rfl⟩

theorem recorded_start (total : ℕ) : (start gate workers fs).Recorded total := by
  have hreports : reports (start gate workers fs).workers (start gate workers fs).results = [] := by
    simp [reports, start, List.filterMap_map, Stage.report?]
  exact ⟨rfl, by simp [start], hreports ▸ .nil⟩

end Start

variable {limit total : ℕ} {b b' : Batch α}

theorem Balanced.step (h : b.Balanced limit) (hstep : Step total b b') : b'.Balanced limit := by
  obtain ⟨hlimit, hheld, hlock, hprocessed⟩ := h
  cases hstep with
  | @work front back w stage stage' sh sh' results hwork =>
    simp only [count_middle] at hheld hlock hprocessed
    obtain ⟨hheld', hlimit'⟩ := hwork.permit_balance (by omega)
    have hlock' := hwork.lock_balance (by omega)
    have hprocessed' := hwork.processed_balance
    constructor
    · exact hlimit'.trans hlimit
    all_goals
      simp only [count_middle]
      omega
  | collect =>
    rw [count_middle] at hheld hlock hprocessed
    exact ⟨hlimit, hheld.trans (Nat.zero_add _), hlock.trans (Nat.zero_add _),
      hprocessed.trans (congrArg _ (Nat.zero_add _))⟩

theorem Balanced.processed_of_numbered {front back : List (Worker α × Stage α)} {w : Worker α} {a : α}
    {sh : Shared} {results : List (Worker α × α)}
    (h : (⟨front ++ (w, .numbered a) :: back, sh, results⟩ : Batch α).Balanced limit) :
    sh.processed = sh.events.length + 1 := by
  obtain ⟨-, -, hlock, hprocessed⟩ := h
  rw [count_middle] at hlock hprocessed
  have halone := sh.locked.toNat_le
  have hothers := count_le Stage.pending_le_inside (front ++ back)
  dsimp only [Stage.inside, Stage.pending] at hlock hprocessed
  omega

theorem Recorded.step (h : b.Recorded total) (hb : b.Balanced limit) (hstep : Step total b b') :
    b'.Recorded total := by
  obtain ⟨hnumbers, htotals, hreported⟩ := h
  cases hstep with
  | @work front back w stage stage' sh sh' results hwork =>
    have hmiddle := reports_middle front back w stage results
    have hmiddle' := reports_middle front back w stage' results
    obtain ⟨a, rfl, rfl, hevents⟩ | ⟨hevents, hreport⟩ := hwork.event_cases
    · have hprocessed := hb.processed_of_numbered
      constructor <;> dsimp only <;> rw [hevents]
      · rw [List.map_append, hnumbers, List.length_append, List.length_singleton,
          List.range'_concat, List.map_singleton, hprocessed]
        simp [Nat.add_comm]
      · intro event hevent
        rcases List.mem_append.mp hevent with hevent | hevent
        · exact htotals event hevent
        · rw [List.mem_singleton.mp hevent]
      · rw [List.map_append]
        refine List.perm_append_comm.trans (.trans ?_ hmiddle'.symm)
        exact (hreported.trans hmiddle).append_left _
    · constructor <;> dsimp only <;> rw [hevents]
      · exact hnumbers
      · exact htotals
      · rw [hreport] at hmiddle'
        exact hreported.trans (hmiddle.trans hmiddle'.symm)
  | @collect front back w a sh results =>
    refine ⟨hnumbers, htotals, hreported.trans ((reports_middle ..).trans ?_)⟩
    dsimp only
    rw [reports, reports, List.map_append]
    refine List.perm_append_comm.trans ?_
    rw [List.append_assoc]
    exact .refl _

theorem Reaches.sound (h : Reaches total b b') (hb : b.Balanced limit) (hr : b.Recorded total) :
    b'.Balanced limit ∧ b'.Recorded total := by
  induction h with
  | refl => exact ⟨hb, hr⟩
  | tail _ hstep ih => exact ⟨ih.1.step hstep, ih.2.step ih.1 hstep⟩

theorem Recorded.of_ended (h : b.Recorded total) (hended : b.workers = []) :
    b.shared.events.map Progress.processed = List.range' 1 b.results.length ∧
      (b.shared.events.map fun event => (event.path, event.content)).Perm
        (b.results.map fun wa => (wa.1.path, wa.1.report wa.2)) := by
  have hreported := h.reported
  rw [hended] at hreported
  have hlength := hreported.length_eq
  rw [reports, List.filterMap_nil, List.nil_append, List.length_map, List.length_map] at hlength
  exact ⟨hlength ▸ h.numbers, hreported⟩

/-! ## No batch gets stuck -/

end Batch

theorem Worker.step_or_waits (w : Worker α) (total : ℕ) (stage : Stage α) (sh : Shared) :
    (∃ stage' sh', w.Step total stage sh stage' sh') ∨
      (∃ a, stage = .ended a) ∨
      stage = .waiting ∧ sh.gate.limit ≤ sh.gate.held ∨
      (∃ a, stage = .working (.done a)) ∧ sh.locked = true := by
  cases stage with
  | waiting =>
    by_cases hfree : sh.gate.held < sh.gate.limit
    · exact .inl ⟨_, _, .acquire (if_pos hfree)⟩
    · exact .inr (.inr (.inl ⟨rfl, Nat.le_of_not_lt hfree⟩))
  | admitted => exact .inl ⟨_, _, .countUp⟩
  | counted seen => exact .inl ⟨_, _, .raisePeak⟩
  | working t =>
    cases t with
    | call op next => exact .inl ⟨_, _, .operate⟩
    | done a =>
      cases hlocked : sh.locked with
      | false => exact .inl ⟨_, _, .lock hlocked⟩
      | true => exact .inr (.inr (.inr ⟨⟨a, rfl⟩, rfl⟩))
  | reporting a => exact .inl ⟨_, _, .count⟩
  | numbered a => exact .inl ⟨_, _, .announce⟩
  | announced a => exact .inl ⟨_, _, .unlock⟩
  | leaving a => exact .inl ⟨_, _, .countDown⟩
  | discounted a => exact .inl ⟨_, _, .release⟩
  | ended a => exact .inr (.inl ⟨a, rfl⟩)

namespace Batch

variable {limit total : ℕ} {b b' : Batch α}

/-- As long as there are workers, something can happen: whoever has the lock gives it back, and if
nobody has a permit, there is a free one. -/
theorem Balanced.exists_step (h : b.Balanced limit) (hlimit : 0 < limit) (hworkers : b.workers ≠ []) :
    ∃ b', Step total b b' := by
  by_contra hstuck
  have hwaits : ∀ ws ∈ b.workers, ws.2 = .waiting ∧ b.shared.gate.limit ≤ b.shared.gate.held ∨
      (∃ a, ws.2 = .working (.done a)) ∧ b.shared.locked = true := by
    intro ws hws
    obtain ⟨front, back, hsplit⟩ := List.append_of_mem hws
    obtain ⟨w, stage⟩ := ws
    obtain ⟨workers, sh, results⟩ := b
    dsimp only at hsplit
    subst hsplit
    obtain ⟨stage', sh', hstep⟩ | ⟨a, rfl⟩ | hwaits := w.step_or_waits total stage sh
    · exact absurd ⟨_, .work hstep⟩ hstuck
    · exact absurd ⟨_, .collect⟩ hstuck
    · exact hwaits
  have hunlocked : b.shared.locked = false := by
    have hinside : count Stage.inside b.workers = 0 := count_eq_zero fun ws hws => by
      obtain ⟨hstage, -⟩ | ⟨⟨a, hstage⟩, -⟩ := hwaits ws hws <;> rw [hstage] <;> rfl
    exact Bool.toNat_eq_zero.mp (h.lock.trans hinside)
  have hall : ∀ ws ∈ b.workers, ws.2 = .waiting ∧ b.shared.gate.limit ≤ b.shared.gate.held :=
    fun ws hws => (hwaits ws hws).resolve_right (by simp [hunlocked])
  have hpermits : count Stage.permits b.workers = 0 := count_eq_zero fun ws hws => by
    rw [(hall ws hws).1]
    rfl
  obtain ⟨ws, hws⟩ := List.exists_mem_of_ne_nil _ hworkers
  have hfull := (hall ws hws).2
  rw [h.limit, h.held, hpermits] at hfull
  omega

/-! ## Every batch ends -/

end Batch

def Stage.Next (stage' stage : Stage α) : Prop :=
  ∃ (w : Worker α) (total : ℕ) (sh sh' : Shared), w.Step total stage sh stage' sh'

theorem Stage.acc_of_step {stage : Stage α} (h : ∀ {w : Worker α} {total : ℕ} {stage' : Stage α}
    {sh sh' : Shared}, w.Step total stage sh stage' sh' → Acc Stage.Next stage') :
    Acc Stage.Next stage :=
  ⟨_, fun _ ⟨_, _, _, _, hstep⟩ => h hstep⟩

theorem Stage.wellFounded_next : WellFounded (Stage.Next : Stage α → Stage α → Prop) := by
  have hended (a : α) : Acc Stage.Next (.ended a) := acc_of_step nofun
  have hdiscounted (a : α) : Acc Stage.Next (.discounted a) := acc_of_step fun | .release => hended a
  have hleaving (a : α) : Acc Stage.Next (.leaving a) :=
    acc_of_step fun | .countDown => hdiscounted a
  have hannounced (a : α) : Acc Stage.Next (.announced a) := acc_of_step fun | .unlock => hleaving a
  have hnumbered (a : α) : Acc Stage.Next (.numbered a) :=
    acc_of_step fun | .announce => hannounced a
  have hreporting (a : α) : Acc Stage.Next (.reporting a) := acc_of_step fun | .count => hnumbered a
  have hworking (t : Task α) : Acc Stage.Next (.working t) := by
    induction t with
    | done a => exact acc_of_step fun | .lock _ => hreporting a
    | call op next ih => exact acc_of_step fun | .operate => ih _
  have hcounted (seen : ℕ) : Acc Stage.Next (.counted seen : Stage α) :=
    acc_of_step fun | .raisePeak => hworking _
  have hadmitted : Acc Stage.Next (.admitted : Stage α) := acc_of_step fun | .countUp => hcounted _
  refine ⟨fun stage => ?_⟩
  cases stage with
  | waiting => exact acc_of_step fun | .acquire _ => hadmitted
  | admitted => exact hadmitted
  | counted seen => exact hcounted seen
  | working t => exact hworking t
  | reporting a => exact hreporting a
  | numbered a => exact hnumbered a
  | announced a => exact hannounced a
  | leaving a => exact hleaving a
  | discounted a => exact hdiscounted a
  | ended a => exact hended a

namespace Batch

def stages (b : Batch α) : Multiset (Stage α) := b.workers.map Prod.snd

theorem stages_middle (front back : List (Worker α × Stage α)) (w : Worker α) (stage : Stage α)
    (sh : Shared) (results : List (Worker α × α)) :
    stages ⟨front ++ (w, stage) :: back, sh, results⟩ =
      stage ::ₘ stages ⟨front ++ back, sh, results⟩ := by
  have hmiddle := (@List.perm_middle _ (w, stage) front back).map Prod.snd
  exact Multiset.coe_eq_coe.mpr hmiddle

theorem Step.cutExpand {total : ℕ} {b b' : Batch α} (h : Step total b b') :
    Relation.CutExpand Stage.Next b'.stages b.stages := by
  cases h with
  | @work front back w stage stage' sh sh' results hwork =>
    refine ⟨{stage'}, stage, fun other hother => ?_, ?_⟩
    · rw [Multiset.mem_singleton.mp hother]
      exact ⟨w, total, sh, sh', hwork⟩
    · rw [stages_middle, stages_middle, ← Multiset.singleton_add, ← Multiset.singleton_add,
        Multiset.add_assoc, Multiset.add_comm {stage'}, Multiset.add_comm _ {stage}]
      rfl
  | @collect front back w a sh results =>
    refine ⟨0, .ended a, fun other hother => absurd hother (Multiset.notMem_zero other), ?_⟩
    rw [stages_middle, ← Multiset.singleton_add, Multiset.add_zero, Multiset.add_comm]
    rfl

theorem wellFounded_step (total : ℕ) :
    WellFounded fun b' b : Batch α => Step total b b' :=
  Subrelation.wf (fun h => h.cutExpand) (InvImage.wf stages Stage.wellFounded_next.cutExpand)

variable {limit total : ℕ} {b : Batch α}

theorem Balanced.exists_end (h : b.Balanced limit) (hlimit : 0 < limit) :
    ∃ last, Reaches total b last ∧ last.workers = [] := by
  induction b using (wellFounded_step total).induction with
  | _ b ih =>
    by_cases hworkers : b.workers = []
    · exact ⟨b, .refl, hworkers⟩
    · obtain ⟨b', hstep⟩ : ∃ b', Step total b b' := h.exists_step hlimit hworkers
      obtain ⟨last, hrest, hlast⟩ := ih b' hstep (h.step hstep)
      exact ⟨last, .head hstep hrest, hlast⟩

/-! ## One worker after the other -/

section Sequence

variable {w : Worker α} {others : List (Worker α × Stage α)} {results : List (Worker α × α)}

theorem step_first {stage stage' : Stage α} {sh sh' : Shared} (h : w.Step total stage sh stage' sh') :
    Step total ⟨(w, stage) :: others, sh, results⟩ ⟨(w, stage') :: others, sh', results⟩ :=
  @Step.work _ _ [] _ _ _ _ _ _ _ h

theorem reaches_task (t : Task α) (sh : Shared) :
    Reaches total ⟨(w, .working t) :: others, sh, results⟩
      ⟨(w, .working (.done (t.run sh.fs).1)) :: others, { sh with fs := (t.run sh.fs).2 }, results⟩ := by
  induction t generalizing sh with
  | done a => exact .refl
  | call op next ih => exact .head (step_first .operate) (ih _ _)

theorem reaches_first {gate inside : Gate} (hinside : gate.enter? = some inside) (processed : ℕ)
    (events : List Progress) (fs : FileSystem) :
    Reaches total ⟨(w, .waiting) :: others, ⟨gate, false, processed, events, fs⟩, results⟩
      ⟨others, ⟨inside.leave, false, processed + 1,
        events ++ [⟨total, processed + 1, w.path, w.report (w.task.run fs).1⟩], (w.task.run fs).2⟩,
        results ++ [(w, (w.task.run fs).1)]⟩ := by
  obtain ⟨admitted, hadmitted, rfl⟩ := Option.map_eq_some_iff.mp hinside
  refine .head (step_first (.acquire hadmitted)) ?_
  refine .head (step_first .countUp) (.head (step_first .raisePeak) ?_)
  refine (reaches_task w.task _).trans ?_
  refine .head (step_first (.lock rfl)) (.head (step_first .count) (.head (step_first .announce) ?_))
  refine .head (step_first .unlock) (.head (step_first .countDown) (.head (step_first .release) ?_))
  exact .single (@Step.collect _ _ [] _ _ _ _ _)

theorem reaches_runWorkers {gate : Gate} (hgate : gate.held < gate.limit) (processed : ℕ)
    (events : List Progress) (results : List (Worker α × α)) (workers : List (Worker α))
    {fs fs' : FileSystem} {finished : Finished α}
    (hrun : (runWorkers total processed gate workers).run fs = (finished, fs')) :
    ∃ collected, collected.map Prod.snd = finished.results ∧
      Reaches total ⟨workers.map (·, .waiting), ⟨gate, false, processed, events, fs⟩, results⟩
        ⟨[], ⟨finished.gate, false, processed + workers.length, events ++ finished.events, fs'⟩,
          results ++ collected⟩ := by
  induction workers generalizing processed gate events results fs finished with
  | nil =>
    obtain ⟨rfl, rfl⟩ := Prod.mk.inj hrun
    exact ⟨[], rfl, by rw [List.append_nil, List.append_nil]; exact .refl⟩
  | cons w workers ih =>
    obtain ⟨inside, hinside, hheld, hlimit⟩ := Gate.exists_enter? hgate
    have hleave : inside.leave.held < inside.leave.limit := by omega
    rw [run_runWorkers_cons hinside] at hrun
    obtain ⟨rfl, rfl⟩ := Prod.mk.inj hrun
    obtain ⟨collected, hcollected, hothers⟩ := ih hleave (processed + 1)
      (events ++ [⟨total, processed + 1, w.path, w.report (w.task.run fs).1⟩])
      (results ++ [(w, (w.task.run fs).1)]) rfl
    refine ⟨(w, (w.task.run fs).1) :: collected, ?_, (reaches_first hinside _ _ _).trans ?_⟩
    · rw [List.map_cons, hcollected]
    · rw [List.append_assoc, List.append_assoc, Nat.add_assoc, Nat.add_comm 1] at hothers
      exact hothers

end Sequence

/-! ## All workers at once -/

section Together

variable {results : List (Worker α × α)} {sh : Shared}

theorem reaches_started (front : List (Worker α × Stage α)) (workers : List (Worker α))
    (hfree : sh.gate.held + workers.length ≤ sh.gate.limit) :
    ∃ gate, Reaches total ⟨front ++ workers.map (·, .waiting), sh, results⟩
      ⟨front ++ workers.map fun w => (w, .working w.task), { sh with gate }, results⟩ := by
  induction workers generalizing front sh with
  | nil => exact ⟨sh.gate, .refl⟩
  | cons w workers ih =>
    rw [List.length_cons] at hfree
    let admitted : Gate := { sh.gate with held := sh.gate.held + 1 }
    have hadmitted : sh.gate.acquire? = some admitted := if_pos (by omega)
    have hleft : sh.gate.held + 1 + workers.length ≤ sh.gate.limit := by omega
    obtain ⟨gate, hothers⟩ := @ih
      { sh with gate := admitted.countUp.raisePeak admitted.countUp.inFlight }
      (front ++ [(w, .working w.task)]) hleft
    rw [List.append_assoc, List.append_assoc] at hothers
    exact ⟨gate, .head (.work (.acquire hadmitted))
      (.head (.work .countUp) (.head (.work .raisePeak) hothers))⟩

theorem reaches_collected {front back : List (Worker α × Stage α)} {w : Worker α} {a : α}
    (hlock : sh.locked = false) : ∃ sh', sh'.fs = sh.fs ∧ sh'.locked = false ∧
      Reaches total ⟨front ++ (w, .working (.done a)) :: back, sh, results⟩
        ⟨front ++ back, sh', results ++ [(w, a)]⟩ := by
  refine ⟨_, ?_, ?_, .head (.work (.lock hlock)) (.head (.work .count) (.head (.work .announce)
    (.head (.work .unlock) (.head (.work .countDown) (.head (.work .release) (.single .collect))))))⟩ <;>
    rfl

theorem reaches_interleaved {working : List (Worker α × Task α)} {fs fs' : FileSystem}
    {collected : List (Worker α × α)}
    (h : Task.Interleaved (working.map fun wt => (wt.1, ·) <$> wt.2) fs collected fs')
    (hlock : sh.locked = false) (hfs : sh.fs = fs) : ∃ sh', sh'.fs = fs' ∧
      Reaches total ⟨working.map fun wt => (wt.1, .working wt.2), sh, results⟩
        ⟨[], sh', results ++ collected⟩ := by
  generalize hts : working.map (fun wt => (wt.1, ·) <$> wt.2) = ts at h
  induction h generalizing working sh results with
  | nil =>
    obtain rfl := List.map_eq_nil_iff.mp hts
    exact ⟨sh, hfs, by rw [List.append_nil]; exact .refl⟩
  | @collect before after wa collected fs fs' others ih =>
    obtain ⟨front, back, rfl, rfl, hback⟩ := List.map_eq_append_iff.mp hts
    obtain ⟨⟨w, t⟩, back, rfl, htask, rfl⟩ := List.map_eq_cons_iff.mp hback
    obtain ⟨a, rfl, rfl⟩ : ∃ a, t = .done a ∧ wa = (w, a) := by
      cases t with
      | done a =>
        cases htask
        exact ⟨a, rfl, rfl⟩
      | call => cases htask
    obtain ⟨sh', hfs', hlock', hfirst⟩ := @reaches_collected _ total results sh
      (front.map fun wt => (wt.1, .working wt.2)) (back.map fun wt => (wt.1, .working wt.2)) w a hlock
    obtain ⟨last, hlast, hrest⟩ := @ih (results ++ [(w, a)]) sh' (front ++ back) hlock'
      (hfs'.trans hfs) List.map_append
    rw [List.map_append, List.append_assoc] at hrest
    rw [List.map_append, List.map_cons]
    exact ⟨last, hlast, hfirst.trans hrest⟩
  | @step before after op next collected fs fs' others ih =>
    obtain ⟨front, back, rfl, rfl, hback⟩ := List.map_eq_append_iff.mp hts
    obtain ⟨⟨w, t⟩, back, rfl, htask, rfl⟩ := List.map_eq_cons_iff.mp hback
    cases t with
    | done => cases htask
    | call op' next' =>
      cases htask
      subst hfs
      obtain ⟨last, hlast, hrest⟩ := @ih results { sh with fs := (op.apply sh.fs).2 }
        (front ++ (w, next' (op.apply sh.fs).1) :: back) hlock rfl (by rw [List.map_append]; rfl)
      rw [List.map_append, List.map_cons] at hrest ⊢
      exact ⟨last, hlast, .head (.work .operate) hrest⟩

theorem reaches_of_interleaved {gate : Gate} {workers : List (Worker α)} {fs fs' : FileSystem}
    (hfree : gate.held + workers.length ≤ gate.limit)
    (h : Task.Interleaved (workers.map fun w => (w, ·) <$> w.task) fs results fs') :
    ∃ sh, sh.fs = fs' ∧ Reaches total (start gate workers fs) ⟨[], sh, results⟩ := by
  obtain ⟨gate', hstarted⟩ := @reaches_started _ total [] ⟨gate, false, 0, [], fs⟩ [] workers hfree
  have hworking : Task.Interleaved ((workers.map fun w => (w, w.task)).map
      fun wt : Worker α × Task α => (wt.1, ·) <$> wt.2) fs results fs' := by
    rwa [List.map_map]
  obtain ⟨sh, hfs, hrest⟩ := @reaches_interleaved _ total [] ⟨gate', false, 0, [], fs⟩ _ _ _ _
    hworking rfl rfl
  rw [List.map_map] at hrest
  exact ⟨sh, hfs, hstarted.trans hrest⟩

end Together

end Batch

end Masthead.Editor
