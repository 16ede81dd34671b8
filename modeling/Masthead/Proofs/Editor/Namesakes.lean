import Mathlib.Data.Multiset.Filter
import Masthead.Proofs.Editor.Moves
import Masthead.Proofs.Editor.Pointwise

/-!
# Jobs that name the same file

While several jobs for one file are worked on, they share the place of the copy. Whoever writes it has
seen the file as some of the others left it, one after the other; whoever finds it gone comes too late,
and whoever finds it read-only is turned away.
-/
namespace Masthead.Editor
open FileSystem Header

/-- A job with how far its editing has come. -/
structure Editing where
  job : Job
  phase : Phase

/-- A job with the birth time of its file that it sees. -/
abbrev Turn := Job × Option Moment

def ChangesFile (result : Except Failure Edit) : Prop :=
  ∃ edit : Edit, result = .ok edit ∧ edit.action.isChange

@[simp] theorem changesFile_ok {edit : Edit} : ChangesFile (.ok edit) ↔ edit.action.isChange := by
  simp [ChangesFile]

@[simp] theorem not_changesFile_error {failure : Failure} : ¬ChangesFile (.error failure) := by
  simp [ChangesFile]

namespace Phase

/-- The copy was to be opened, and it was neither renamed nor removed since, as far as the job knows. -/
def IsOpen : Phase → Prop
  | inspecting _ | marking _ _ | replacing _ | clearing _ => True
  | _ => False

/-- The file was read, and what was made of it was decided. -/
def isPast : Phase → Bool
  | inspecting _ | marking _ _ | replacing _ | clearing _ | ended _ => true
  | _ => false

def IsChange (phase : Phase) : Prop := ∃ result, phase = ended result ∧ ChangesFile result

end Phase

/-- Something is wrong with the file at `l` or with its copy. -/
def Faulty (fs : FileSystem) (l : Location) (cause : IoError) : Prop :=
  fs.fault? false (copyLocation l) = some cause ∨ fs.fault? true l = some cause

/-- The job has renamed a copy over the file, or it has failed and removed a copy. -/
def Decides (fs : FileSystem) (l : Location) (job : Job) (result : Except Failure Edit) : Prop :=
  ChangesFile result ∨
    ∃ cause, result = .error (ioFailure job cause) ∧ Faulty fs l cause

/-- A birth time that the file at `l` may come to have: its own one, that of new files, or that of a
file in the place of its copy. -/
def IsBirth (fs : FileSystem) (l : Location) (born : Option Moment) : Prop :=
  born = fs.clock ∨ ∃ file, born = file.born ∧
    (fs.nodeAt? l = some (.file file) ∨ fs.nodeAt? (copyLocation l) = some (.file file))

namespace Site

variable (σ : Site)

/-- No read-only file is left over in the place of the copy. -/
def Free : Prop := ¬isReadOnly (σ.start.nodeAt? (copyLocation σ.location))

/-- What the file holds after jobs are done one after the other. -/
def contentAfter (order : List Turn) : Content :=
  order.foldl (fun c turn => (σ.edited turn.1 turn.2 c).2) σ.file.content

@[simp] theorem contentAfter_nil : σ.contentAfter [] = σ.file.content := rfl

@[simp] theorem contentAfter_concat (order : List Turn) (turn : Turn) :
    σ.contentAfter (order ++ [turn]) = (σ.edited turn.1 turn.2 (σ.contentAfter order)).2 := by
  simp [contentAfter]

/-- The turns are of jobs in `before`, each of which sees some birth time of the file. -/
structure Within (before : Multiset Job) (order : List Turn) : Prop where
  jobs : (order.map Prod.fst : Multiset Job) ≤ before
  births : ∀ turn ∈ order, IsBirth σ.start σ.location turn.2

/-- The result is that of the job after some of the others. -/
def Serial (before : Multiset Job) (job : Job) (result : Except Failure Edit) : Prop :=
  ∃ (order : List Turn) (born : Option Moment), σ.Within before ((job, born) :: order) ∧
    result = (σ.edited job born (σ.contentAfter order)).1

/-- The edit is a change of what the file holds after some jobs. -/
structure Planned (order : List Turn) (born : Option Moment) (job : Job) (edit : Edit) : Prop where
  plan : σ.plan job born (σ.contentAfter order) = .ok edit
  change : edit.action.isChange

/-- A copy was written. -/
structure Copied (order : List Turn) (born : Option Moment) (job : Job) (edit : Edit) : Prop extends
    σ.Planned order born job edit where
  opened : σ.refusal? job = none
  stored : σ.spoiled? edit.content = none

/-- The job has written a copy after some of the others. -/
def HasCopied (before : Multiset Job) (job : Job) (edit : Edit) : Prop :=
  ∃ (order : List Turn) (born : Option Moment), σ.Within before ((job, born) :: order) ∧
    σ.Copied order born job edit

/-- What is known of a job in a phase. The jobs in `before` have come to their changes, `decided` says
that one of them decides, and `denying` that they may be turned away. -/
def Fact (before : Multiset Job) (decided denying : Prop) (job : Job) : Phase → Prop
  | .looking | .dating => True
  | .loading rule => ∃ born, IsBirth σ.start σ.location born ∧
      ∀ c, σ.plan job born c = revised job rule c.decoded
  | .copying edit => ∃ (order : List Turn) (born : Option Moment), σ.Within before order ∧
      IsBirth σ.start σ.location born ∧ σ.Planned order born job edit
  | .inspecting edit | .replacing edit => σ.HasCopied before job edit
  | .marking edit permissions => σ.HasCopied before job edit ∧
      (permissions.readOnly → σ.file.permissions.readOnly)
  | .clearing cause =>
    (σ.Serial before job (.error (ioFailure job cause)) ∧
      (σ.refusal? job = none → Faulty σ.start σ.location cause)) ∨
    σ.refusal? job = none ∧ (cause = .notFound ∧ decided ∨ cause = .permissionDenied ∧ denying)
  | .ended result => σ.Serial before job result ∨
    result = .error (ioFailure job .notFound) ∧ decided ∨
    result = .error (ioFailure job .permissionDenied) ∧ denying

def past (g : Multiset Editing) : Multiset Job := (g.filter fun k => k.phase.isPast).map Editing.job

/-- A copy may be read-only: the file is, and there are several jobs that may have written the copy. -/
def Denying (g : Multiset Editing) : Prop := σ.file.permissions.readOnly ∧ 1 < Multiset.card g

/-- Some job of those that have ended decides, or it was turned away and removed the copy. -/
def Decided (g : Multiset Editing) : Prop := ∃ k ∈ g, ∃ result, k.phase = .ended result ∧
  (σ.Serial (past g) k.job result ∧ Decides σ.start σ.location k.job result ∨
    result = .error (ioFailure k.job .permissionDenied) ∧ σ.Denying g)

def Held (g : Multiset Editing) : Prop := ∃ k ∈ g, σ.refusal? k.job = none ∧ k.phase.IsOpen

/-- Where a copy is from. -/
structure Origin (before : Multiset Job) (copy : File) : Prop where
  content : (∃ (job : Job) (edit : Edit), σ.HasCopied before job edit ∧
      copy.content = .text edit.content) ∨
    copy.content = .text [] ∧ ∃ cause, σ.start.fault? false (copyLocation σ.location) = some cause
  born : IsBirth σ.start σ.location copy.born
  permissions : copy.permissions.readOnly → σ.file.permissions.readOnly

/-- What is at the place of the copy: what was there at the start, nothing, or what a job wrote there. -/
def CopyFact (g : Multiset Editing) (n : Option Node) : Prop :=
  n = σ.start.nodeAt? (copyLocation σ.location) ∧ ¬σ.Held g ∨ n = none ∧ σ.Decided g ∨
    ∃ copy, n = some (.file copy) ∧ σ.Held g ∧ σ.Origin (past g) copy

/-- The file may be what the turns leave. -/
structure Leaves (before : Multiset Job) (order : List Turn) (file : File) : Prop where
  within : σ.Within before order
  content : file.content = σ.contentAfter order
  born : IsBirth σ.start σ.location file.born
  permissions : file.permissions.readOnly → σ.file.permissions.readOnly

/-- What holds all the time of the jobs that name one file. -/
structure Group (g : Multiset Editing) (cell : Cell) : Prop where
  facts : ∀ k ∈ g, σ.Fact (past g) (σ.Decided g) (σ.Denying g) k.job k.phase
  file : ∃ order : List Turn, σ.Leaves (past g) order cell.file ∧
    (order ≠ [] ↔ ∃ k ∈ g, k.phase.IsChange)
  copy : σ.CopyFact g cell.copy

variable {σ} {before after : Multiset Job} {d d' q q' : Prop} {job : Job} {phase : Phase}
  {result : Except Failure Edit} {order : List Turn} {born : Option Moment}
  {edit : Edit} {copy file : File}

/-! ## What is known stays known -/

theorem Within.mono (h : σ.Within before order) (hle : before ≤ after) : σ.Within after order :=
  ⟨h.jobs.trans hle, h.births⟩

theorem Within.concat {turn : Turn} (h : σ.Within before (turn :: order)) :
    σ.Within before (order ++ [turn]) := by
  have hperm := List.perm_append_singleton turn order
  refine ⟨?_, fun other hother => h.births other (hperm.mem_iff.mp hother)⟩
  rw [Multiset.coe_eq_coe.mpr (hperm.map Prod.fst)]
  exact h.jobs

theorem Serial.mono (h : σ.Serial before job result) (hle : before ≤ after) :
    σ.Serial after job result := by
  obtain ⟨order, born, horder, hresult⟩ := h
  exact ⟨order, born, horder.mono hle, hresult⟩

theorem HasCopied.mono (h : σ.HasCopied before job edit) (hle : before ≤ after) :
    σ.HasCopied after job edit := by
  obtain ⟨order, born, horder, hcopied⟩ := h
  exact ⟨order, born, horder.mono hle, hcopied⟩

theorem Origin.mono (h : σ.Origin before copy) (hle : before ≤ after) : σ.Origin after copy := by
  refine ⟨?_, h.born, h.permissions⟩
  obtain ⟨job, edit, hcopied, hcontent⟩ | hempty := h.content
  · exact .inl ⟨job, edit, hcopied.mono hle, hcontent⟩
  · exact .inr hempty

theorem Leaves.mono (h : σ.Leaves before order file) (hle : before ≤ after) :
    σ.Leaves after order file :=
  ⟨h.within.mono hle, h.content, h.born, h.permissions⟩

theorem Fact.mono (h : σ.Fact before d q job phase) (hle : before ≤ after)
    (hdecided : d → d') (hdenying : q → q') : σ.Fact after d' q' job phase := by
  cases phase with
  | looking | dating | loading => exact h
  | copying edit =>
    obtain ⟨order, born, horder, hplanned⟩ := h
    exact ⟨order, born, horder.mono hle, hplanned⟩
  | inspecting edit | replacing edit => exact HasCopied.mono h hle
  | marking edit permissions => exact ⟨h.1.mono hle, h.2⟩
  | clearing cause =>
    obtain ⟨hserial, hfaulty⟩ | ⟨hopen, hcause⟩ := h
    · exact .inl ⟨hserial.mono hle, hfaulty⟩
    · exact .inr ⟨hopen, hcause.imp (And.imp_right hdecided) (And.imp_right hdenying)⟩
  | ended result =>
    exact h.imp (Serial.mono · hle) (Or.imp (And.imp_right hdecided) (And.imp_right hdenying))

/-! ## What a plan comes to -/

section Planned

variable (h : σ.Planned order born job edit)
include h

theorem Planned.edited_of_obstacle {cause : IoError}
    (hobstacle : σ.obstacle? job edit.content = some cause) :
    σ.edited job born (σ.contentAfter order) =
      (.error (ioFailure job cause), σ.contentAfter order) := by
  rw [edited, h.plan]
  dsimp only
  rw [if_pos h.change, hobstacle]

theorem Planned.edited_of_none (hobstacle : σ.obstacle? job edit.content = none) :
    σ.edited job born (σ.contentAfter order) = (.ok edit, .text edit.content) := by
  rw [edited, h.plan]
  dsimp only
  rw [if_pos h.change, hobstacle]

end Planned

theorem Copied.obstacle?_eq (h : σ.Copied order born job edit) :
    σ.obstacle? job edit.content = σ.renameFault? := by
  rw [obstacle?, h.opened]
  dsimp only
  rw [h.stored]

theorem Copied.eq_nil (h : σ.Copied order born job edit) {cause : IoError}
    (hfault : σ.start.fault? false (copyLocation σ.location) = some cause) : edit.content = [] := by
  have hstored := h.stored
  by_contra hne
  rw [Site.spoiled?, Header.spoiled?, if_neg hne, hfault] at hstored
  cases hstored

theorem faulty_of_spoiled {t : Text} {cause : IoError} (h : σ.spoiled? t = some cause) :
    σ.start.fault? false (copyLocation σ.location) = some cause := by
  unfold Site.spoiled? Header.spoiled? at h
  split_ifs at h
  exact h

theorem HasCopied.opened (h : σ.HasCopied before job edit) : σ.refusal? job = none := by
  obtain ⟨order, born, -, hcopied⟩ := h
  exact hcopied.opened

theorem HasCopied.isChange (h : σ.HasCopied before job edit) : edit.action.isChange := by
  obtain ⟨order, born, -, hcopied⟩ := h
  exact hcopied.change

theorem HasCopied.serial (h : σ.HasCopied before job edit) : σ.Serial before job
    (match σ.renameFault? with
      | some cause => .error (ioFailure job cause)
      | none => .ok edit) := by
  obtain ⟨order, born, horder, hcopied⟩ := h
  refine ⟨order, born, horder, ?_⟩
  have hobstacle := hcopied.obstacle?_eq
  cases hfault : σ.renameFault? with
  | some cause => rw [hcopied.toPlanned.edited_of_obstacle (hobstacle.trans hfault)]
  | none => rw [hcopied.toPlanned.edited_of_none (hobstacle.trans hfault)]

theorem refusal?_of_fact (h : σ.Fact before d q job phase) (hphase : phase.HasCopied) :
    σ.refusal? job = none := by
  cases phase with
  | inspecting edit | replacing edit => exact HasCopied.opened h
  | marking edit permissions => exact h.1.opened
  | _ => exact hphase.elim

theorem HasCopied.exists_order (h : σ.HasCopied before job edit) (hrename : σ.renameFault? = none) :
    ∃ order : List Turn, σ.Within before order ∧ order ≠ [] ∧
      .text edit.content = σ.contentAfter order := by
  obtain ⟨order, born, horder, hcopied⟩ := h
  refine ⟨order ++ [(job, born)], horder.concat, by simp, ?_⟩
  rw [contentAfter_concat, hcopied.toPlanned.edited_of_none (hcopied.obstacle?_eq.trans hrename)]

theorem Origin.exists_leaves (h : σ.Origin before copy) (hrename : σ.renameFault? = none)
    (hown : σ.HasCopied before job edit) :
    ∃ order : List Turn, σ.Leaves before order copy ∧ order ≠ [] := by
  obtain ⟨job', edit', hcopied, hcontent⟩ | ⟨hempty, cause, hfault⟩ := h.content
  · obtain ⟨order, horder, hne, heq⟩ := hcopied.exists_order hrename
    exact ⟨order, ⟨horder, hcontent.trans heq, h.born, h.permissions⟩, hne⟩
  · obtain ⟨order, horder, hne, heq⟩ := hown.exists_order hrename
    obtain ⟨_, _, -, hcopied⟩ := hown
    rw [hcopied.eq_nil hfault] at heq
    exact ⟨order, ⟨horder, hempty.trans heq, h.born, h.permissions⟩, hne⟩

/-! ## One step -/

theorem past_cons (k : Editing) (g : Multiset Editing) :
    past (k ::ₘ g) = if k.phase.isPast then k.job ::ₘ past g else past g := by
  by_cases hpast : k.phase.isPast <;> simp [past, hpast]

section Step

variable {rest : Multiset Editing} {phase' : Phase} {cell cell' : Cell}

theorem Moves.not_ended (h : σ.Moves job phase cell phase' cell') (result : Except Failure Edit) :
    phase ≠ .ended result := by
  cases h with
  | rule early => rcases early with rfl | rfl <;> simp
  | _ => simp

theorem Moves.isPast_mono (h : σ.Moves job phase cell phase' cell') (hpast : phase.isPast) :
    phase'.isPast := by
  cases h with
  | rule early => rcases early with rfl | rfl <;> cases hpast
  | date | revise => cases hpast
  | _ => rfl

theorem Moves.past_le (h : σ.Moves job phase cell phase' cell') (rest : Multiset Editing) :
    past (⟨job, phase⟩ ::ₘ rest) ≤ past (⟨job, phase'⟩ ::ₘ rest) := by
  rw [past_cons, past_cons]
  dsimp only
  by_cases hpast : phase.isPast
  · rw [if_pos hpast, if_pos (h.isPast_mono hpast)]
  · rw [if_neg hpast]
    split_ifs
    · exact Multiset.le_cons_self _ _
    · exact le_rfl

theorem denying_cons : σ.Denying (⟨job, phase⟩ ::ₘ rest) ↔ σ.Denying (⟨job, phase'⟩ ::ₘ rest) := by
  rw [Denying, Denying, Multiset.card_cons, Multiset.card_cons]

theorem Moves.decided_mono (h : σ.Moves job phase cell phase' cell') {rest : Multiset Editing}
    (hdecided : σ.Decided (⟨job, phase⟩ ::ₘ rest)) : σ.Decided (⟨job, phase'⟩ ::ₘ rest) := by
  obtain ⟨k, hk, result, hresult, hdecides⟩ := hdecided
  obtain rfl | hk := Multiset.mem_cons.mp hk
  · exact absurd hresult (h.not_ended result)
  · refine ⟨k, Multiset.mem_cons_of_mem hk, result, hresult, ?_⟩
    exact hdecides.imp (And.imp_left (Serial.mono · (h.past_le rest))) (And.imp_right denying_cons.mp)

theorem within_past (hlive : ¬phase.isPast) (hpast : phase'.isPast)
    (hle : σ.Within (past (⟨job, phase⟩ ::ₘ rest)) order) (hborn : IsBirth σ.start σ.location born) :
    σ.Within (past (⟨job, phase'⟩ ::ₘ rest)) ((job, born) :: order) := by
  obtain ⟨hjobs, hbirths⟩ := hle
  rw [past_cons, if_neg hlive] at hjobs
  refine ⟨?_, List.forall_mem_cons.mpr ⟨hborn, hbirths⟩⟩
  rw [past_cons, if_pos hpast]
  exact Multiset.cons_le_cons job hjobs

theorem held_cons (k : Editing) (g : Multiset Editing) :
    σ.Held (k ::ₘ g) ↔ σ.refusal? k.job = none ∧ k.phase.IsOpen ∨ σ.Held g := by
  simp only [Held, Multiset.mem_cons, exists_eq_or_imp]

theorem held_of_open (opened : σ.refusal? job = none) (hopen : phase.IsOpen) :
    σ.Held (⟨job, phase⟩ ::ₘ rest) :=
  (held_cons _ _).mpr (.inl ⟨opened, hopen⟩)

theorem exists_isChange_cons (k : Editing) (g : Multiset Editing) :
    (∃ other ∈ k ::ₘ g, other.phase.IsChange) ↔
      k.phase.IsChange ∨ ∃ other ∈ g, other.phase.IsChange := by
  simp only [Multiset.mem_cons, exists_eq_or_imp]

theorem Moves.not_isChange (h : σ.Moves job phase cell phase' cell') : ¬phase.IsChange :=
  fun ⟨_, hended, _⟩ => h.not_ended _ hended

theorem CopyFact.congr {g g' : Multiset Editing} {n : Option Node} (h : σ.CopyFact g n)
    (hheld : σ.Held g' ↔ σ.Held g) (hdecided : σ.Decided g → σ.Decided g') (hpast : past g ≤ past g') :
    σ.CopyFact g' n := by
  obtain ⟨hn, hfree⟩ | ⟨hn, hgone⟩ | ⟨copy, hn, hholder, horigin⟩ := h
  · exact .inl ⟨hn, mt hheld.mp hfree⟩
  · exact .inr (.inl ⟨hn, hdecided hgone⟩)
  · exact .inr (.inr ⟨copy, hn, hheld.mpr hholder, horigin.mono hpast⟩)

theorem Group.of_moves (h : σ.Group (⟨job, phase⟩ ::ₘ rest) cell)
    (hmoves : σ.Moves job phase cell phase' cell')
    (hfact : σ.Fact (past (⟨job, phase'⟩ ::ₘ rest)) (σ.Decided (⟨job, phase'⟩ ::ₘ rest))
      (σ.Denying (⟨job, phase'⟩ ::ₘ rest)) job phase')
    (hfile : cell'.file = cell.file ∧ ¬phase'.IsChange ∨
      phase'.IsChange ∧ ∃ order, σ.Leaves (past (⟨job, phase'⟩ ::ₘ rest)) order cell'.file ∧ order ≠ [])
    (hcopy : σ.CopyFact (⟨job, phase'⟩ ::ₘ rest) cell'.copy) :
    σ.Group (⟨job, phase'⟩ ::ₘ rest) cell' where
  facts k hk := by
    obtain rfl | hk := Multiset.mem_cons.mp hk
    · exact hfact
    · exact (h.facts k (Multiset.mem_cons_of_mem hk)).mono (hmoves.past_le rest) hmoves.decided_mono
        denying_cons.mp
  file := by
    obtain ⟨hsame, hnot⟩ | ⟨hchange, order, hleaves, hne⟩ := hfile
    · obtain ⟨order, hleaves, horder⟩ := h.file
      refine ⟨order, hsame ▸ hleaves.mono (hmoves.past_le rest), horder.trans ?_⟩
      rw [exists_isChange_cons, exists_isChange_cons]
      exact or_congr_left (iff_of_false hmoves.not_isChange hnot)
    · exact ⟨order, hleaves, iff_of_true hne ⟨_, Multiset.mem_cons_self _ _, hchange⟩⟩
  copy := hcopy

theorem fact_ofRule (hborn : IsBirth σ.start σ.location born) :
    σ.Fact (past (⟨job, .ofRule job (σ.rule job born)⟩ ::ₘ rest)) d q job
      (.ofRule job (σ.rule job born)) := by
  obtain ⟨failure, hphase, hplan⟩ | ⟨rule, hphase, hplan⟩ := ofRule_cases σ job born
  · rw [hphase]
    refine .inl ⟨[], born, ⟨?_, by simpa using hborn⟩, ?_⟩
    · rw [past_cons]
      exact Multiset.cons_le_cons job (Multiset.zero_le _)
    · rw [edited, hplan]
  · rw [hphase]
    exact ⟨born, hborn, hplan⟩

theorem fact_ofRevised {rule : Header.Rule} {c : Content} (hborn : IsBirth σ.start σ.location born)
    (hrule : ∀ c, σ.plan job born c = revised job rule c.decoded)
    (hle : σ.Within (past (⟨job, .loading rule⟩ ::ₘ rest)) order)
    (hc : c = σ.contentAfter order) (hphase : phase' = .ofRevised (revised job rule c.decoded)) :
    σ.Fact (past (⟨job, phase'⟩ ::ₘ rest)) d q job phase' ∧ ¬phase'.IsChange ∧ ¬phase'.IsOpen := by
  rw [← hrule, hc] at hphase
  cases hplan : σ.plan job born (σ.contentAfter order) with
  | error failure =>
    rw [hplan, Phase.ofRevised] at hphase
    subst hphase
    refine ⟨.inl ⟨order, born, within_past (by simp [Phase.isPast]) rfl hle hborn, ?_⟩, ?_, id⟩
    · rw [edited, hplan]
    · simp [Phase.IsChange]
  | ok edit =>
    rw [hplan, Phase.ofRevised] at hphase
    by_cases hchange : edit.action.isChange
    · rw [if_pos hchange] at hphase
      subst hphase
      refine ⟨⟨order, born, ⟨?_, hle.births⟩, hborn, hplan, hchange⟩, ?_, id⟩
      · have hjobs := hle.jobs
        rwa [past_cons] at hjobs ⊢
      · simp [Phase.IsChange]
    · rw [if_neg hchange] at hphase
      subst hphase
      refine ⟨.inl ⟨order, born, within_past (by simp [Phase.isPast]) rfl hle hborn, ?_⟩, ?_, id⟩
      · rw [edited, hplan]
        dsimp only
        rw [if_neg hchange]
      · simpa [Phase.IsChange] using hchange

theorem Group.of_quiet (h : σ.Group (⟨job, phase⟩ ::ₘ rest) cell)
    (hmoves : σ.Moves job phase cell phase' cell)
    (hfact : σ.Fact (past (⟨job, phase'⟩ ::ₘ rest)) (σ.Decided (⟨job, phase'⟩ ::ₘ rest))
      (σ.Denying (⟨job, phase'⟩ ::ₘ rest)) job phase')
    (hchange : ¬phase'.IsChange) (hopen : σ.refusal? job = none → (phase'.IsOpen ↔ phase.IsOpen)) :
    σ.Group (⟨job, phase'⟩ ::ₘ rest) cell := by
  refine h.of_moves hmoves hfact (.inl ⟨rfl, hchange⟩) ?_
  refine h.copy.congr ?_ hmoves.decided_mono (hmoves.past_le rest)
  rw [held_cons, held_cons]
  exact or_congr_left (and_congr_right hopen)

theorem Group.step_looking (h : σ.Group (⟨job, phase⟩ ::ₘ rest) cell)
    (early : phase = .looking ∨ phase = .dating) :
    σ.Group (⟨job, .ofRule job (σ.rule job cell.file.born)⟩ ::ₘ rest) cell := by
  have hmoves : σ.Moves job phase cell (.ofRule job (σ.rule job cell.file.born)) cell := .rule early
  have hclosed : ¬phase.IsOpen := by obtain rfl | rfl := early <;> exact id
  have hnext : ¬(Phase.ofRule job (σ.rule job cell.file.born)).IsChange ∧
      ¬(Phase.ofRule job (σ.rule job cell.file.born)).IsOpen := by
    obtain ⟨failure, hphase, -⟩ | ⟨rule, hphase, -⟩ := ofRule_cases σ job cell.file.born <;>
      rw [hphase] <;> exact ⟨by simp [Phase.IsChange], id⟩
  obtain ⟨order, hleaves, -⟩ := h.file
  exact h.of_quiet hmoves (fact_ofRule hleaves.born) hnext.1 fun _ => iff_of_false hnext.2 hclosed

theorem Group.step_loading {rule : Header.Rule} (h : σ.Group (⟨job, .loading rule⟩ ::ₘ rest) cell) :
    σ.Group (⟨job, .ofRevised (revised job rule cell.file.content.decoded)⟩ ::ₘ rest) cell := by
  obtain ⟨order, hleaves, -⟩ := h.file
  obtain ⟨born, hborn, hplan⟩ := h.facts _ (Multiset.mem_cons_self _ _)
  obtain ⟨hfact, hchange, hopen⟩ := fact_ofRevised hborn hplan hleaves.within hleaves.content rfl
  exact h.of_quiet .revise hfact hchange fun _ => iff_of_false hopen id

theorem readOnly_written (σ : Site) (n : Option Node) (t : Text) :
    (σ.written n t).permissions.readOnly = isReadOnly n := by
  rcases n with _ | (file | _) <;> rfl

theorem CopyFact.isBirth {g : Multiset Editing} {n : Option Node} (h : σ.CopyFact g n) (t : Text) :
    IsBirth σ.start σ.location (σ.written n t).born := by
  obtain ⟨hn, -⟩ | ⟨rfl, -⟩ | ⟨copy, rfl, -, horigin⟩ := h
  · rcases n with _ | (copy | _)
    · exact .inl rfl
    · exact .inr ⟨copy, rfl, .inr hn.symm⟩
    · exact .inl rfl
  · exact .inl rfl
  · exact horigin.born

theorem CopyFact.origin_written {g : Multiset Editing} {n : Option Node} {t : Text}
    (h : σ.CopyFact g n) (free : ¬isReadOnly n)
    (hcontent : (∃ (job : Job) (edit : Edit), σ.HasCopied before job edit ∧
        (σ.written n t).content = .text edit.content) ∨
      (σ.written n t).content = .text [] ∧
        ∃ cause, σ.start.fault? false (copyLocation σ.location) = some cause) :
    σ.Origin before (σ.written n t) where
  content := hcontent
  born := h.isBirth t
  permissions hlocked := by
    rw [readOnly_written] at hlocked
    exact absurd hlocked free

theorem Group.denying (h : σ.Group (⟨job, .copying edit⟩ ::ₘ rest) cell) (hfree : σ.Free)
    (hlocked : isReadOnly cell.copy) :
    σ.Denying (⟨job, .copying edit⟩ ::ₘ rest) ∧ σ.Held (⟨job, .copying edit⟩ ::ₘ rest) := by
  obtain ⟨hn, -⟩ | ⟨hn, -⟩ | ⟨copy, hn, hheld, horigin⟩ := h.copy
  · rw [hn] at hlocked
    exact absurd hlocked hfree
  · rw [hn] at hlocked
    cases hlocked
  · rw [hn] at hlocked
    refine ⟨⟨horigin.permissions hlocked, ?_⟩, hheld⟩
    obtain ⟨k, hk, -⟩ := ((held_cons _ _).mp hheld).resolve_left fun hopen => hopen.2
    rw [Multiset.card_cons]
    exact Nat.lt_add_of_pos_left (Multiset.card_pos_iff_exists_mem.mpr ⟨k, hk⟩)

theorem Group.step_copying (h : σ.Group (⟨job, .copying edit⟩ ::ₘ rest) cell) (hfree : σ.Free)
    (hmoves : σ.Moves job (.copying edit) cell phase' cell') :
    σ.Group (⟨job, phase'⟩ ::ₘ rest) cell' := by
  obtain ⟨order, born, hle, hborn, hplanned⟩ := h.facts _ (Multiset.mem_cons_self _ _)
  have hpast : phase'.isPast → σ.Within (past (⟨job, phase'⟩ ::ₘ rest)) ((job, born) :: order) :=
    fun hpast => within_past (by simp [Phase.isPast]) hpast hle hborn
  cases hmoves with
  | rule early => simp at early
  | @refuse _ _ cause refused =>
    have hobstacle : σ.obstacle? job edit.content = some cause := by rw [obstacle?, refused]
    have hserial := hplanned.edited_of_obstacle hobstacle
    refine h.of_quiet (.refuse refused) (.inl ⟨⟨order, born, hpast rfl, ?_⟩, ?_⟩)
      (by simp [Phase.IsChange]) ?_
    · rw [hserial]
    · simp [refused]
    · simp [refused]
  | deny opened locked =>
    obtain ⟨hdenying, hheld⟩ := h.denying hfree locked
    have hmoves : σ.Moves job (.copying edit) cell (.clearing .permissionDenied) cell :=
      .deny opened locked
    refine h.of_moves hmoves (.inr ⟨opened, .inr ⟨rfl, denying_cons.mp hdenying⟩⟩)
      (.inl ⟨rfl, by simp [Phase.IsChange]⟩) ?_
    exact h.copy.congr (iff_of_true (held_of_open opened trivial) hheld) hmoves.decided_mono
      (hmoves.past_le rest)
  | @spoil _ file n cause opened free spoiled =>
    have hobstacle : σ.obstacle? job edit.content = some cause := by
      rw [obstacle?, opened, spoiled]
    have hserial := hplanned.edited_of_obstacle hobstacle
    have hfault := faulty_of_spoiled spoiled
    refine h.of_moves (.spoil opened free spoiled)
      (.inl ⟨⟨order, born, hpast rfl, ?_⟩, fun _ => .inl hfault⟩)
      (.inl ⟨rfl, by simp [Phase.IsChange]⟩)
      (.inr (.inr ⟨_, rfl, held_of_open opened trivial, ?_⟩))
    · rw [hserial]
    · exact h.copy.origin_written free (.inr ⟨rfl, cause, hfault⟩)
  | @copy _ file n opened free stored =>
    have hcopied : σ.HasCopied (past (⟨job, .inspecting edit⟩ ::ₘ rest)) job edit :=
      ⟨order, born, hpast rfl, hplanned, opened, stored⟩
    have horigin := h.copy.origin_written free (.inl ⟨job, edit, hcopied, rfl⟩)
    exact h.of_moves (.copy opened free stored) hcopied (.inl ⟨rfl, by simp [Phase.IsChange]⟩)
      (.inr (.inr ⟨_, rfl, held_of_open opened trivial, horigin⟩))

theorem CopyFact.decided {g : Multiset Editing} (h : σ.CopyFact g none) (hheld : σ.Held g) :
    σ.Decided g := by
  obtain ⟨-, hfree⟩ | ⟨-, hgone⟩ | ⟨copy, hn, -⟩ := h
  · exact absurd hheld hfree
  · exact hgone
  · cases hn

theorem CopyFact.origin {g : Multiset Editing} (h : σ.CopyFact g (some (.file copy)))
    (hheld : σ.Held g) : σ.Origin (past g) copy := by
  obtain ⟨-, hfree⟩ | ⟨hn, -⟩ | ⟨copy, hn, -, horigin⟩ := h
  · exact absurd hheld hfree
  · cases hn
  · cases hn
    exact horigin

theorem HasCopied.held (h : σ.HasCopied before job edit) (hopen : phase.IsOpen) :
    σ.Held (⟨job, phase⟩ ::ₘ rest) :=
  held_of_open h.opened hopen

theorem Group.step_inspecting (h : σ.Group (⟨job, .inspecting edit⟩ ::ₘ rest) cell) :
    σ.Group (⟨job, .marking edit cell.file.permissions⟩ ::ₘ rest) cell := by
  have hcopied : σ.HasCopied _ job edit := h.facts _ (Multiset.mem_cons_self _ _)
  have hmoves : σ.Moves job (.inspecting edit) cell (.marking edit cell.file.permissions) cell :=
    .inspect
  obtain ⟨order, hleaves, -⟩ := h.file
  exact h.of_quiet hmoves ⟨hcopied.mono (hmoves.past_le rest), hleaves.permissions⟩
    (by simp [Phase.IsChange]) fun _ => .rfl

theorem Group.step_marking {permissions : Permissions}
    (h : σ.Group (⟨job, .marking edit permissions⟩ ::ₘ rest) cell)
    (hmoves : σ.Moves job (.marking edit permissions) cell phase' cell') :
    σ.Group (⟨job, phase'⟩ ::ₘ rest) cell' := by
  obtain ⟨hcopied, hpermissions⟩ := h.facts _ (Multiset.mem_cons_self _ _)
  have hnext := hcopied.mono (hmoves.past_le rest)
  cases hmoves with
  | rule early => simp at early
  | pass => exact h.of_quiet .pass hnext (by simp [Phase.IsChange]) fun _ => .rfl
  | @mark _ _ file copy =>
    have horigin := h.copy.origin (hcopied.held trivial)
    have hmark : σ.Moves job (.marking edit permissions) ⟨file, some (.file copy)⟩ (.replacing edit)
      ⟨file, some (.file { copy with permissions })⟩ := .mark
    refine h.of_moves hmark hnext (.inl ⟨rfl, by simp [Phase.IsChange]⟩)
      (.inr (.inr ⟨_, rfl, hcopied.held trivial, ?_⟩))
    obtain ⟨hcontent, hborn, -⟩ := horigin.mono (hmark.past_le rest)
    exact ⟨hcontent, hborn, hpermissions⟩

theorem Group.step_replacing (h : σ.Group (⟨job, .replacing edit⟩ ::ₘ rest) cell)
    (hmoves : σ.Moves job (.replacing edit) cell phase' cell') :
    σ.Group (⟨job, phase'⟩ ::ₘ rest) cell' := by
  have hcopied : σ.HasCopied _ job edit := h.facts _ (Multiset.mem_cons_self _ _)
  have hholder : σ.Held (⟨job, .replacing edit⟩ ::ₘ rest) := hcopied.held trivial
  have hserial := (hcopied.mono (hmoves.past_le rest)).serial
  have hdecided : σ.Decided (⟨job, .replacing edit⟩ ::ₘ rest) →
      σ.Decided (⟨job, phase'⟩ ::ₘ rest) := hmoves.decided_mono
  cases hmoves with
  | rule early => simp at early
  | lose =>
    exact h.of_quiet .lose (.inr ⟨hcopied.opened, .inl ⟨rfl, hdecided (h.copy.decided hholder)⟩⟩)
      (by simp [Phase.IsChange]) fun _ => .rfl
  | @keep _ file copy cause fault =>
    rw [fault] at hserial
    exact h.of_quiet (.keep fault) (.inl ⟨hserial, fun _ => .inr fault⟩)
      (by simp [Phase.IsChange]) fun _ => .rfl
  | @replace _ file copy renamable =>
    rw [renamable] at hserial
    have hmoves : σ.Moves job (.replacing edit) ⟨file, some (.file copy)⟩ (.ended (.ok edit))
      ⟨copy, none⟩ := .replace renamable
    have hchange : (Phase.ended (.ok edit)).IsChange := ⟨_, rfl, edit, rfl, hcopied.isChange⟩
    have hended : σ.Decided (⟨job, .ended (.ok edit)⟩ ::ₘ rest) :=
      ⟨_, Multiset.mem_cons_self _ _, _, rfl, .inl ⟨hserial, .inl ⟨edit, rfl, hcopied.isChange⟩⟩⟩
    have horigin := (h.copy.origin hholder).mono (hmoves.past_le rest)
    exact h.of_moves hmoves (.inl hserial)
      (.inr ⟨hchange, horigin.exists_leaves renamable (hcopied.mono (hmoves.past_le rest))⟩)
      (.inr (.inl ⟨rfl, hended⟩))

theorem Group.step_clearing {cause : IoError} (h : σ.Group (⟨job, .clearing cause⟩ ::ₘ rest) cell)
    (hmoves : σ.Moves job (.clearing cause) cell phase' cell') :
    σ.Group (⟨job, phase'⟩ ::ₘ rest) cell' := by
  have hown := h.facts _ (Multiset.mem_cons_self _ _)
  have hnot : ¬(Phase.ended (.error (ioFailure job cause))).IsChange := by simp [Phase.IsChange]
  have hpast := hmoves.past_le rest
  have hdecided : σ.Decided (⟨job, .clearing cause⟩ ::ₘ rest) →
      σ.Decided (⟨job, phase'⟩ ::ₘ rest) := hmoves.decided_mono
  cases hmoves with
  | rule early => simp at early
  | leave refused =>
    obtain ⟨hserial, -⟩ | ⟨hopen, -⟩ := hown
    · exact h.of_quiet (.leave refused) (.inl (hserial.mono hpast)) hnot (by simp [refused])
    · cases hopen.symm.trans refused
  | @clear _ file n opened =>
    obtain ⟨hserial, hfaulty⟩ | ⟨-, ⟨rfl, hd⟩ | ⟨rfl, hdenying⟩⟩ := hown
    · have hended : σ.Decided (⟨job, .ended (.error (ioFailure job cause))⟩ ::ₘ rest) :=
        ⟨_, Multiset.mem_cons_self _ _, _, rfl,
          .inl ⟨hserial.mono hpast, .inr ⟨cause, rfl, hfaulty opened⟩⟩⟩
      exact h.of_moves (.clear opened) (.inl (hserial.mono hpast)) (.inl ⟨rfl, hnot⟩)
        (.inr (.inl ⟨rfl, hended⟩))
    · exact h.of_moves (.clear opened) (.inr (.inl ⟨rfl, hdecided hd⟩)) (.inl ⟨rfl, hnot⟩)
        (.inr (.inl ⟨rfl, hdecided hd⟩))
    · have hdenied : σ.Denying (⟨job, .ended (.error (ioFailure job .permissionDenied))⟩ ::ₘ rest) :=
        denying_cons.mp hdenying
      exact h.of_moves (.clear opened) (.inr (.inr ⟨rfl, hdenied⟩)) (.inl ⟨rfl, hnot⟩)
        (.inr (.inl ⟨rfl, _, Multiset.mem_cons_self _ _, _, rfl, .inr ⟨rfl, hdenied⟩⟩))

theorem Group.step (h : σ.Group (⟨job, phase⟩ ::ₘ rest) cell) (hfree : σ.Free)
    (hmoves : σ.Moves job phase cell phase' cell') : σ.Group (⟨job, phase'⟩ ::ₘ rest) cell' := by
  cases hmoves with
  | date => exact h.of_quiet .date trivial (by simp [Phase.IsChange]) fun _ => .rfl
  | rule early => exact h.step_looking early
  | revise => exact h.step_loading
  | refuse refused => exact h.step_copying hfree (.refuse refused)
  | deny opened locked => exact h.step_copying hfree (.deny opened locked)
  | spoil opened free spoiled => exact h.step_copying hfree (.spoil opened free spoiled)
  | copy opened free stored => exact h.step_copying hfree (.copy opened free stored)
  | inspect => exact h.step_inspecting
  | mark => exact h.step_marking .mark
  | pass => exact h.step_marking .pass
  | lose => exact h.step_replacing .lose
  | keep fault => exact h.step_replacing (.keep fault)
  | replace renamable => exact h.step_replacing (.replace renamable)
  | leave refused => exact h.step_clearing (.leave refused)
  | clear opened => exact h.step_clearing (.clear opened)

end Step

/-! ## The start and the end -/

section Ends

variable {g : Multiset Editing} {cell : Cell}

theorem group_start (hnode : σ.start.nodeAt? σ.location = some (.file σ.file))
    (h : ∀ k ∈ g, k.phase = .looking) :
    σ.Group g ⟨σ.file, σ.start.nodeAt? (copyLocation σ.location)⟩ where
  facts k hk := by
    rw [h k hk]
    trivial
  file := by
    refine ⟨[], ⟨⟨Multiset.zero_le _, by simp⟩, rfl, .inr ⟨σ.file, rfl, .inl hnode⟩, id⟩,
      iff_of_false (by simp) ?_⟩
    rintro ⟨k, hk, edit, hended, -⟩
    cases (h k hk).symm.trans hended
  copy := by
    refine .inl ⟨rfl, ?_⟩
    rintro ⟨k, hk, -, hopen⟩
    rw [h k hk] at hopen
    exact hopen

variable (hended : ∀ k ∈ g, ∃ result, k.phase = .ended result)
include hended

theorem past_of_ended : past g = g.map Editing.job := by
  rw [past, Multiset.filter_eq_self.mpr]
  intro k hk
  obtain ⟨result, hphase⟩ := hended k hk
  rw [hphase]
  rfl

theorem Group.copy_of_ended (h : σ.Group g cell) :
    cell.copy = σ.start.nodeAt? (copyLocation σ.location) ∨ cell.copy = none := by
  obtain ⟨hcopy, -⟩ | ⟨hcopy, -⟩ | ⟨copy, -, ⟨k, hk, -, hopen⟩, -⟩ := h.copy
  · exact .inl hcopy
  · exact .inr hcopy
  · obtain ⟨result, hphase⟩ := hended k hk
    rw [hphase] at hopen
    exact hopen.elim

end Ends

end Site

/-! ## One after the other -/

/-- The file system after jobs for the file at `l` are done one after the other, each of which sees the
birth time that its turn says. -/
def afterEdits (e : Editor) (s : Surroundings) (l : Location) (order : List Turn) (fs : FileSystem) :
    FileSystem :=
  order.foldl (fun fs turn => ((e.edit s turn.1).run (redated fs l turn.2)).2) fs

namespace Site

variable {σ : Site} {order : List Turn}

section Order

variable (hnode : σ.start.nodeAt? σ.location = some (.file σ.file)) (hfree : σ.Free)
  (hnames : ∀ turn ∈ order, σ.Names turn.1) (hdisk : ∀ turn ∈ order, turn.1.source = .onDisk)
include hnode hfree hnames hdisk

theorem shows_afterEdits : ∃ cell, Shows σ.start σ.location cell
      (afterEdits σ.editor σ.surroundings σ.location order σ.start) ∧
    cell.file.content = σ.contentAfter order ∧ ¬isReadOnly cell.copy := by
  induction order using List.reverseRecOn with
  | nil => exact ⟨⟨σ.file, _⟩, ⟨⟨.refl _ _, hnode⟩, rfl⟩, rfl, hfree⟩
  | append_singleton order turn ih =>
    obtain ⟨cell, hshows, hcontent, hcopy⟩ := ih
      (fun turn hturn => hnames turn (List.mem_append_left _ hturn))
      fun turn hturn => hdisk turn (List.mem_append_left _ hturn)
    have hturn : turn ∈ order ++ [turn] := List.mem_append_right _ (List.mem_singleton_self turn)
    obtain ⟨-, after, hafter, hedited, hcopy'⟩ := shows_run_edit (hnames turn hturn)
      (hshows.redated turn.2) hcopy (hdisk turn hturn)
    rw [contentAfter_concat, afterEdits, List.foldl_append, ← hcontent]
    exact ⟨after, hafter, hedited, hcopy'⟩

theorem alone_afterEdits {job : Job} (hjob : σ.Names job) (hsource : job.source = .onDisk)
    (born : Option Moment) :
    σ.editor.alone σ.surroundings (redated
        (afterEdits σ.editor σ.surroundings σ.location order σ.start) σ.location born) job =
      (σ.edited job born (σ.contentAfter order)).1 := by
  obtain ⟨cell, hshows, hcontent, hcopy⟩ := shows_afterEdits hnode hfree hnames hdisk
  rw [← hcontent]
  exact (shows_run_edit hjob (hshows.redated born) hcopy hsource).1

end Order

end Site
end Masthead.Editor
