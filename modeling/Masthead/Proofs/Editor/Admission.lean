import Masthead.Proofs.Editor.Pointwise

/-!
# The gate in any order of steps

Tasks wait at a gate for a permit, are counted, and on their way out they are discounted before they
give the permit back. The token can be cancelled at any time, and who waits then gives up. Whatever
the order of these steps is, the numbers of the gate are those of the tasks: nobody is counted
without a permit, and no more tasks than the limit have one.
-/
namespace Masthead.Editor

/-- A gate at which nobody has been, with at least one permit. -/
def Gate.idle (limit : ℕ) : Gate := ⟨max limit 1, 0, 0, 0⟩

/-- How far a task has come at the gate. -/
inductive Visit where
  | waiting
  /-- A permit is set aside for the task. -/
  | admitted
  | counted (seen : ℕ)
  | inside
  | discounted
  | ended
  deriving DecidableEq

namespace Visit

def hasPermit : Visit → Bool
  | waiting | ended => false
  | admitted | counted _ | inside | discounted => true

def isCounted : Visit → Bool
  | counted _ | inside => true
  | waiting | admitted | discounted | ended => false

/-- The number of tasks that was seen on entering and is not yet compared with the peak. -/
def seen : Visit → ℕ
  | counted seen => seen
  | _ => 0

/-- One step of one task. If the token is cancelled, who waits gives up, with or without a permit that
was set aside. -/
inductive Step (cancelled : Bool) : Visit → Gate → Visit → Gate → Prop
  | acquire {gate gate' : Gate} (h : gate.acquire? = some gate') :
      Step cancelled .waiting gate .admitted gate'
  | giveUp {gate : Gate} (h : cancelled = true) : Step cancelled .waiting gate .ended gate
  | handBack {gate : Gate} (h : cancelled = true) :
      Step cancelled .admitted gate .ended gate.release
  | countUp {gate : Gate} :
      Step cancelled .admitted gate (.counted gate.countUp.inFlight) gate.countUp
  | raisePeak {gate : Gate} {seen : ℕ} :
      Step cancelled (.counted seen) gate .inside (gate.raisePeak seen)
  | countDown {gate : Gate} : Step cancelled .inside gate .discounted gate.countDown
  | release {gate : Gate} : Step cancelled .discounted gate .ended gate.release

theorem hasPermit_of_isCounted (v : Visit) : v.isCounted → v.hasPermit := by
  cases v <;> simp [isCounted, hasPermit]

end Visit

/-- The tasks at a gate. -/
structure Crowd where
  visits : List Visit
  gate : Gate
  cancelled : Bool

namespace Crowd

/-- So many tasks wait at a gate at which nobody has been. -/
def start (limit tasks : ℕ) : Crowd := ⟨List.replicate tasks .waiting, .idle limit, false⟩

/-- Some task makes a step, the result of one that has ended is collected, or the token is
cancelled. -/
inductive Step : Crowd → Crowd → Prop
  | visit {front back : List Visit} {v v' : Visit} {gate gate' : Gate} {cancelled : Bool}
      (h : v.Step cancelled gate v' gate') :
      Step ⟨front ++ v :: back, gate, cancelled⟩ ⟨front ++ v' :: back, gate', cancelled⟩
  | collect {front back : List Visit} {gate : Gate} {cancelled : Bool} :
      Step ⟨front ++ .ended :: back, gate, cancelled⟩ ⟨front ++ back, gate, cancelled⟩
  | cancel {visits : List Visit} {gate : Gate} {cancelled : Bool} :
      Step ⟨visits, gate, cancelled⟩ ⟨visits, gate, true⟩

abbrev Reaches : Crowd → Crowd → Prop := Relation.ReflTransGen Step

/-- The numbers of the gate are those of the tasks, and no number is above the number of permits. -/
structure Accounted (permits : ℕ) (c : Crowd) : Prop where
  limit : c.gate.limit = permits
  held : c.gate.held = c.visits.countP Visit.hasPermit
  inFlight : c.gate.inFlight = c.visits.countP Visit.isCounted
  held_le : c.gate.held ≤ permits
  seen_le : ∀ v ∈ c.visits, v.seen ≤ permits
  peak_le : c.gate.peak ≤ permits

end Crowd

/-- What a step does to the numbers of the gate is what it does to the task. Only counting a task up
or a look at what was seen can change the peak or what there is to see. -/
theorem Visit.Step.balance {cancelled : Bool} {v v' : Visit} {gate gate' : Gate}
    (h : v.Step cancelled gate v' gate') (hheld : v.hasPermit.toNat ≤ gate.held)
    (hcounted : v.isCounted.toNat ≤ gate.inFlight) :
    gate'.limit = gate.limit ∧
      gate'.held + v.hasPermit.toNat = gate.held + v'.hasPermit.toNat ∧
      gate'.inFlight + v.isCounted.toNat = gate.inFlight + v'.isCounted.toNat ∧
      (gate'.held ≤ gate.held ∨ gate'.held ≤ gate.limit) ∧
      (v'.seen = 0 ∨ v'.seen = gate'.inFlight) ∧ gate'.peak = max gate.peak v.seen := by
  cases h with
  | @acquire gate gate' h =>
    unfold Gate.acquire? at h
    split at h
    · rename_i hfree
      cases h
      exact ⟨rfl, rfl, rfl, .inr hfree, .inl rfl, (Nat.max_zero _).symm⟩
    · cases h
  | giveUp => exact ⟨rfl, rfl, rfl, .inl le_rfl, .inl rfl, (Nat.max_zero _).symm⟩
  | handBack =>
    exact ⟨rfl, Nat.sub_add_cancel hheld, rfl, .inl (Nat.sub_le _ _), .inl rfl, (Nat.max_zero _).symm⟩
  | countUp => exact ⟨rfl, rfl, rfl, .inl le_rfl, .inr rfl, (Nat.max_zero _).symm⟩
  | raisePeak => exact ⟨rfl, rfl, rfl, .inl le_rfl, .inl rfl, rfl⟩
  | countDown =>
    exact ⟨rfl, rfl, Nat.sub_add_cancel hcounted, .inl le_rfl, .inl rfl, (Nat.max_zero _).symm⟩
  | release =>
    exact ⟨rfl, Nat.sub_add_cancel hheld, rfl, .inl (Nat.sub_le _ _), .inl rfl, (Nat.max_zero _).symm⟩

namespace Crowd

variable {permits : ℕ} {c c' : Crowd}

theorem countP_middle (p : Visit → Bool) (front back : List Visit) (v : Visit) :
    (front ++ v :: back).countP p = (front ++ back).countP p + (p v).toNat := by
  rw [List.countP_append, List.countP_cons, List.countP_append]
  cases p v <;> simp [Nat.add_assoc]

theorem accounted_start (limit tasks : ℕ) : (start limit tasks).Accounted (max limit 1) where
  limit := rfl
  held := by simp [start, Gate.idle, List.countP_replicate, Visit.hasPermit]
  inFlight := by simp [start, Gate.idle, List.countP_replicate, Visit.isCounted]
  held_le := Nat.zero_le _
  seen_le := by
    intro v hv
    rw [List.eq_of_mem_replicate hv]
    exact Nat.zero_le _
  peak_le := Nat.zero_le _

theorem Accounted.inFlight_le (h : c.Accounted permits) : c.gate.inFlight ≤ c.gate.held := by
  rw [h.inFlight, h.held]
  exact List.countP_mono_left fun v _ => v.hasPermit_of_isCounted

theorem Accounted.step (h : c.Accounted permits) (hstep : Step c c') : c'.Accounted permits := by
  have hcounted_le := h.inFlight_le
  obtain ⟨hlimit, hheld, hcounted, hfree, hseen, hpeak⟩ := h
  cases hstep with
  | @visit front back v v' gate gate' cancelled hvisit =>
    dsimp only at hlimit hheld hcounted hfree hpeak hcounted_le
    have hothers : ∀ u ∈ front ++ back, u.seen ≤ permits := fun u hu =>
      hseen u (by simp only [List.mem_append, List.mem_cons] at hu ⊢; tauto)
    have hv : v.seen ≤ permits := hseen v (by simp)
    rw [countP_middle] at hheld hcounted
    obtain ⟨hlimit', hheld', hcounted', hfree', hseen', hpeak'⟩ :=
      hvisit.balance (hheld ▸ Nat.le_add_left _ _) (hcounted ▸ Nat.le_add_left _ _)
    have hheld'' : gate'.held = (front ++ v' :: back).countP Visit.hasPermit := by
      rw [countP_middle]
      omega
    have hcounted'' : gate'.inFlight = (front ++ v' :: back).countP Visit.isCounted := by
      rw [countP_middle]
      omega
    have hfree'' : gate'.held ≤ permits := by omega
    have hv' : v'.seen ≤ permits := by
      have hle : gate'.inFlight ≤ gate'.held := by
        rw [hheld'', hcounted'']
        exact List.countP_mono_left fun u _ => u.hasPermit_of_isCounted
      omega
    refine ⟨hlimit'.trans hlimit, hheld'', hcounted'', hfree'', fun u hu => ?_,
      hpeak' ▸ Nat.max_le.mpr ⟨hpeak, hv⟩⟩
    obtain hu | rfl | hu : u ∈ front ∨ u = v' ∨ u ∈ back := by simpa using hu
    · exact hothers u (List.mem_append_left _ hu)
    · exact hv'
    · exact hothers u (List.mem_append_right _ hu)
  | @collect front back gate cancelled =>
    rw [countP_middle] at hheld hcounted
    refine ⟨hlimit, hheld, hcounted, hfree, fun u hu => hseen u ?_, hpeak⟩
    simp only [List.mem_append, List.mem_cons] at hu ⊢
    tauto
  | cancel => exact ⟨hlimit, hheld, hcounted, hfree, hseen, hpeak⟩

theorem Accounted.reaches (h : c.Accounted permits) (hrun : Reaches c c') : c'.Accounted permits := by
  induction hrun with
  | refl => exact h
  | tail _ hstep ih => exact ih.step hstep

/-- When nobody is left at the gate, it is as if nobody had been there, its peak apart. -/
theorem Accounted.of_ended (h : c.Accounted permits) (hended : ∀ v ∈ c.visits, v = .ended) :
    c.gate.inFlight = 0 ∧ c.gate.held = 0 := by
  rw [h.held, h.inFlight, List.countP_eq_zero, List.countP_eq_zero]
  exact ⟨fun v hv => by simp [hended v hv, Visit.isCounted],
    fun v hv => by simp [hended v hv, Visit.hasPermit]⟩

/-- However the steps of any number of tasks fall between one another, and whenever the token is
cancelled, the gate counts who is in, nobody is counted without a permit, no more tasks are let in
than there are permits, and all permits are free when all tasks have ended. -/
theorem gate_bounds_tasks (limit tasks : ℕ) (hrun : Reaches (start limit tasks) c) :
    c.gate.held = c.visits.countP Visit.hasPermit ∧
      c.gate.inFlight = c.visits.countP Visit.isCounted ∧
      c.gate.inFlight ≤ c.gate.held ∧ c.gate.held ≤ max limit 1 ∧ c.gate.peak ≤ max limit 1 ∧
      ((∀ v ∈ c.visits, v = .ended) → c.gate.inFlight = 0 ∧ c.gate.held = 0) := by
  have hc := (accounted_start limit tasks).reaches hrun
  exact ⟨hc.held, hc.inFlight, hc.inFlight_le, hc.held_le, hc.peak_le, hc.of_ended⟩

theorem step_first {v v' : Visit} {gate gate' : Gate} {cancelled : Bool} {others : List Visit}
    (h : v.Step cancelled gate v' gate') :
    Step ⟨v :: others, gate, cancelled⟩ ⟨v' :: others, gate', cancelled⟩ :=
  @Step.visit [] _ _ _ _ _ _ h

/-- One of two tasks is let in. The other one waits until the token is cancelled, and gives up. -/
theorem gate_bounds_two_tasks :
    Reaches (start 0 2) ⟨[.inside, .ended], ⟨1, 1, 1, 1⟩, true⟩ ∧
      Reaches (start 0 2) ⟨[.ended, .ended], ⟨1, 0, 0, 1⟩, true⟩ ∧ 1 ≤ max 0 1 ∧
      (∀ v ∈ [Visit.ended, .ended], v = .ended) := by
  have hinside : Reaches (start 0 2) ⟨[.inside, .ended], ⟨1, 1, 1, 1⟩, true⟩ := by
    have hacquired : Gate.acquire? (.idle 0) = some ⟨1, 1, 0, 0⟩ := rfl
    refine .head (step_first (.acquire hacquired)) ?_
    refine .head (step_first .countUp) (.head (step_first .raisePeak) (.head .cancel ?_))
    exact .single (@Step.visit [.inside] [] _ _ _ _ _ (.giveUp rfl))
  have hended : Reaches (start 0 2) ⟨[.ended, .ended], ⟨1, 0, 0, 1⟩, true⟩ :=
    hinside.trans (.head (step_first .countDown) (.single (step_first .release)))
  obtain ⟨-, -, -, -, hpeak, -⟩ := gate_bounds_tasks 0 2 hended
  exact ⟨hinside, hended, hpeak, by decide⟩

end Crowd

/-! ## Batches at the gate -/

variable {α : Type}

/-- What the gate sees of a worker. -/
def Stage.visit : Stage α → Visit
  | waiting => .waiting
  | admitted => .admitted
  | counted seen => .counted seen
  | working _ | reporting _ | numbered _ | announced _ | leaving _ => .inside
  | discounted _ => .discounted
  | ended _ => .ended

theorem Worker.Step.visit_cases {w : Worker α} {total : ℕ} {stage stage' : Stage α} {sh sh' : Shared}
    (h : w.Step total stage sh stage' sh') (cancelled : Bool) :
    stage.visit.Step cancelled sh.gate stage'.visit sh'.gate ∨
      stage'.visit = stage.visit ∧ sh'.gate = sh.gate := by
  cases h with
  | acquire h => exact .inl (.acquire h)
  | countUp => exact .inl .countUp
  | raisePeak => exact .inl .raisePeak
  | countDown => exact .inl .countDown
  | release => exact .inl .release
  | _ => exact .inr ⟨rfl, rfl⟩

namespace Batch

def crowd (b : Batch α) : Crowd := ⟨b.workers.map fun ws => ws.2.visit, b.shared.gate, false⟩

theorem crowd_start (limit : ℕ) (workers : List (Worker α)) (fs : FileSystem) :
    (start (.idle limit) workers fs).crowd = .start limit workers.length := by
  simp [crowd, start, Crowd.start, Stage.visit, Function.comp_def]

theorem crowd_middle (front back : List (Worker α × Stage α)) (w : Worker α) (stage : Stage α)
    (sh : Shared) (results : List (Worker α × α)) :
    crowd ⟨front ++ (w, stage) :: back, sh, results⟩ =
      ⟨front.map (fun ws => ws.2.visit) ++ stage.visit :: back.map (fun ws => ws.2.visit), sh.gate,
        false⟩ := by
  rw [crowd, List.map_append, List.map_cons]

variable {total : ℕ} {b b' : Batch α}

theorem Reaches.crowd (h : Reaches total b b') : Crowd.Reaches b.crowd b'.crowd := by
  induction h with
  | refl => exact .refl
  | tail _ hstep ih =>
    refine ih.trans ?_
    cases hstep with
    | @work front back w stage stage' sh sh' results hwork =>
      rw [crowd_middle, crowd_middle]
      obtain hvisit | ⟨hvisit, hgate⟩ := hwork.visit_cases false
      · exact .single (.visit hvisit)
      · rw [hvisit, hgate]
    | @collect front back w a sh results =>
      rw [crowd_middle, Batch.crowd, List.map_append]
      exact .single .collect

variable {limit : ℕ} {gate : Gate} {workers : List (Worker α)} {fs : FileSystem}

theorem Reaches.accounted (hgate : Gate.ofLimit? limit = some gate)
    (h : Reaches total (start gate workers fs) b) : b.crowd.Accounted (max limit 1) := by
  have hcrowd := h.crowd
  rw [ofLimit?_eq hgate] at hcrowd
  change Crowd.Reaches (start (.idle limit) workers fs).crowd _ at hcrowd
  rw [crowd_start] at hcrowd
  exact (Crowd.accounted_start _ _).reaches hcrowd

end Batch

theorem Completed.gate_le {limit : ℕ} {workers : List (Worker α)} {fs : FileSystem}
    {results : List (Worker α × α)} {shared : Shared}
    (h : Completed limit workers fs results shared) :
    shared.gate.peak ≤ max limit 1 ∧ shared.gate.inFlight = 0 ∧ shared.gate.held = 0 := by
  cases h with
  | ended opened run =>
    have hb := run.accounted opened
    exact ⟨hb.peak_le, hb.of_ended nofun⟩

/-- The parallelism that is reported of a batch of files is within the limit. -/
theorem FilesEdited.peak_le {e : Editor} {s : Header.Surroundings} {jobs : List Job}
    {fs fs' : FileSystem} {b : FileBatch} (h : FilesEdited e s jobs fs b fs') :
    b.peak ≤ max e.parallelism 1 := by
  obtain ⟨results, shared, hcompleted, rfl, -⟩ := h
  exact hcompleted.gate_le.1

end Masthead.Editor
