import Masthead.Proofs.Editor.Outcome
import Masthead.Proofs.Header.SharedCopy

/-!
# Editing step by step

How far the editing of a file has come. Every step is one file operation: the file is looked for, dated
and loaded, and if its text changes, a copy is written, given the permissions of the file and renamed
over it, or removed again.
-/
namespace Masthead.Editor
open FileSystem

/-- A file that could not be read or replaced. -/
def ioFailure (job : Job) (cause : IoError) : Failure :=
  .ofDocumentError job.path none (.io job.path cause)

def revised (job : Job) (rule : Header.Rule) : Except IoError Text → Except Failure Edit
  | .error cause => .error (ioFailure job cause)
  | .ok t =>
    match rule.revise t with
    | .error cause => .error (.ofDocumentError job.path none (.comment cause))
    | .ok new => .ok ⟨job.path, new.content, new.action⟩

inductive Phase where
  | looking
  | dating
  | loading (rule : Header.Rule)
  | copying (edit : Edit)
  | inspecting (edit : Edit)
  | marking (edit : Edit) (permissions : Permissions)
  | replacing (edit : Edit)
  | clearing (cause : IoError)
  | ended (result : Except Failure Edit)

namespace Phase

def ofRule (job : Job) : Except CreationCause Header.Rule → Phase
  | .error cause => ended (.error (CreationError.failure ⟨job.path, cause⟩ none))
  | .ok rule =>
    if !job.ignoreNonCommentText && !rule.isValid then ended (.error (.nonCommentText job.path none))
    else loading rule

def ofRevised : Except Failure Edit → Phase
  | .error failure => ended (.error failure)
  | .ok edit => if edit.action.isChange then copying edit else ended (.ok edit)

def ofWritten (edit : Edit) : Except IoError Unit → Phase
  | .error cause => clearing cause
  | .ok _ => inspecting edit

/-- The copy is to have the permissions of the file if the file is there. -/
def ofPermissions (edit : Edit) : Option Permissions → Phase
  | some permissions => marking edit permissions
  | none => replacing edit

def ofRenamed (edit : Edit) : Except IoError Unit → Phase
  | .error cause => clearing cause
  | .ok _ => ended (.ok edit)

section Steps

variable (e : Editor) (s : Header.Surroundings) (job : Job)

/-- Only a header needs to know when the file was created. -/
def ofKind (kind : Option EntryKind) : Phase :=
  if kind = some .file then
    match e.resolve job with
    | .ok (_, some _) => dating
    | _ => ofRule job (e.ruleFor s job none)
  else ended (.error (CreationError.failure ⟨job.path, .fileNotFound⟩ none))

def advance : Phase → FileSystem → Phase × FileSystem
  | looking, fs => (ofKind e s job (fs.kind? job.path), fs)
  | dating, fs => (ofRule job (e.ruleFor s job (fs.birthTime? job.path)), fs)
  | loading rule, fs => (ofRevised (revised job rule (fs.readText job.path)), fs)
  | copying edit, fs =>
    let (answer, fs) := fs.writeText (Header.temporaryPath job.path) edit.content
    (ofWritten edit answer, fs)
  | inspecting edit, fs => (ofPermissions edit (fs.permissions? job.path), fs)
  | marking edit permissions, fs =>
    (replacing edit, fs.setPermissions (Header.temporaryPath job.path) permissions)
  | replacing edit, fs =>
    let (answer, fs) := fs.rename (Header.temporaryPath job.path) job.path
    (ofRenamed edit answer, fs)
  | clearing cause, fs =>
    (ended (.error (ioFailure job cause)), fs.removeFile (Header.temporaryPath job.path))
  | ended result, fs => (ended result, fs)

def rank : Phase → ℕ
  | looking => 8
  | dating => 7
  | loading _ => 6
  | copying _ => 5
  | inspecting _ => 4
  | marking _ _ => 3
  | replacing _ => 2
  | clearing _ => 1
  | ended _ => 0

theorem rank_ofRule_lt (rule : Except CreationCause Header.Rule) : (ofRule job rule).rank < 7 := by
  unfold ofRule
  split
  · simp [rank]
  · split <;> simp [rank]

theorem rank_ofKind_lt (kind : Option EntryKind) : (ofKind e s job kind).rank < 8 := by
  unfold ofKind
  split
  · split
    · decide
    · exact (rank_ofRule_lt job _).trans (by decide)
  · simp [rank]

theorem rank_ofRevised_lt (new : Except Failure Edit) : (ofRevised new).rank < 6 := by
  unfold ofRevised
  split
  · simp [rank]
  · split <;> simp [rank]

theorem rank_ofWritten_lt (edit : Edit) (answer : Except IoError Unit) :
    (ofWritten edit answer).rank < 5 := by cases answer <;> simp [ofWritten, rank]

theorem rank_ofPermissions_lt (edit : Edit) (answer : Option Permissions) :
    (ofPermissions edit answer).rank < 4 := by cases answer <;> simp [ofPermissions, rank]

theorem rank_ofRenamed_lt (edit : Edit) (answer : Except IoError Unit) :
    (ofRenamed edit answer).rank < 2 := by cases answer <;> simp [ofRenamed, rank]

def task : Phase → Task (Except Failure Edit)
  | looking => .call (.kind job.path) fun kind => task (ofKind e s job kind)
  | dating => .call (.birthTime job.path) fun born => task (ofRule job (e.ruleFor s job born))
  | loading rule => .call (.read job.path) fun t => task (ofRevised (revised job rule t))
  | copying edit =>
    .call (.write (Header.temporaryPath job.path) edit.content) fun answer =>
      task (ofWritten edit answer)
  | inspecting edit => .call (.permissions job.path) fun answer => task (ofPermissions edit answer)
  | marking edit permissions =>
    .call (.setPermissions (Header.temporaryPath job.path) permissions) fun _ => task (replacing edit)
  | replacing edit =>
    .call (.rename (Header.temporaryPath job.path) job.path) fun answer =>
      task (ofRenamed edit answer)
  | clearing cause =>
    .call (.remove (Header.temporaryPath job.path)) fun _ =>
      task (ended (.error (ioFailure job cause)))
  | ended result => .done result
termination_by phase => phase.rank
decreasing_by
  · exact rank_ofKind_lt e s job kind
  · exact rank_ofRule_lt job _
  · exact rank_ofRevised_lt _
  · exact rank_ofWritten_lt edit answer
  · exact rank_ofPermissions_lt edit answer
  · exact Nat.lt_succ_self 2
  · exact rank_ofRenamed_lt edit answer
  · exact Nat.zero_lt_one

end Steps

variable {e : Editor} {s : Header.Surroundings} {job : Job} {phase : Phase}

theorem task_advance {op : FileOperation} {next : op.Answer → Task (Except Failure Edit)}
    (h : phase.task e s job = .call op next) (fs : FileSystem) :
    (phase.advance e s job fs).1.task e s job = next (op.apply fs).1 ∧
      (phase.advance e s job fs).2 = (op.apply fs).2 := by
  cases phase <;> rw [task] at h <;> cases h <;> exact ⟨rfl, rfl⟩

theorem step_task (phase : Phase) (fs : FileSystem) : (phase.task e s job).step fs =
    ((phase.advance e s job fs).1.task e s job, (phase.advance e s job fs).2) := by
  cases htask : phase.task e s job with
  | done result =>
    cases phase <;> rw [task] at htask <;> cases htask
    rw [advance, task]
    rfl
  | call op next =>
    obtain ⟨hnext, hfs⟩ := task_advance htask fs
    rw [hnext, hfs]
    rfl

theorem run_task_advance (phase : Phase) (fs : FileSystem) :
    ((phase.advance e s job fs).1.task e s job).run (phase.advance e s job fs).2 =
      (phase.task e s job).run fs := by
  have hrun := (phase.task e s job).run_step fs
  rwa [step_task] at hrun

end Phase

/-! ## The phases are those of the editor -/

section Task

variable {e : Editor} {s : Header.Surroundings} {job : Job}

theorem task_ended (result : Except Failure Edit) :
    (Phase.ended result).task e s job = .done result := by rw [Phase.task]

theorem task_clearing (cause : IoError) : (Phase.clearing cause).task e s job =
    Task.remove (Header.temporaryPath job.path) >>= fun _ =>
      .done (.error (ioFailure job cause)) := by
  rw [Phase.task]
  refine congrArg (Task.call _) (funext fun _ => ?_)
  rw [task_ended]
  rfl

theorem task_replacing (edit : Edit) : (Phase.replacing edit).task e s job =
    Task.rename (Header.temporaryPath job.path) job.path >>= fun
      | .error cause =>
        Task.remove (Header.temporaryPath job.path) >>= fun _ =>
          .done (.error (ioFailure job cause))
      | .ok _ => .done (.ok edit) := by
  rw [Phase.task]
  refine congrArg (Task.call _) (funext fun renamed => ?_)
  cases renamed with
  | error cause =>
    rw [Phase.ofRenamed, task_clearing]
    rfl
  | ok =>
    rw [Phase.ofRenamed, task_ended]
    rfl

theorem task_inspecting (edit : Edit) : (Phase.inspecting edit).task e s job =
    Header.copyPermissions job.path >>= fun _ => (Phase.replacing edit).task e s job := by
  rw [Phase.task]
  refine congrArg (Task.call _) (funext fun answer => ?_)
  cases answer with
  | none => rfl
  | some permissions =>
    rw [Phase.ofPermissions, Phase.task]
    rfl

theorem task_copying (edit : Edit) : (Phase.copying edit).task e s job =
    Header.replaceFile job.path edit.content >>= fun
      | .error cause => .done (.error (ioFailure job cause))
      | .ok _ => .done (.ok edit) := by
  rw [Phase.task]
  refine congrArg (Task.call _) (funext fun written => ?_)
  cases written with
  | error cause =>
    rw [Phase.ofWritten, task_clearing]
    rfl
  | ok =>
    rw [Phase.ofWritten, task_inspecting, task_replacing]
    refine Eq.trans ?_ (Task.bind_assoc (Header.copyPermissions job.path) _ _).symm
    refine congrArg (Header.copyPermissions job.path >>= ·) (funext fun _ => ?_)
    refine congrArg (Task.call _) (funext fun renamed => ?_)
    cases renamed <;> rfl

theorem task_ofRevised (rule : Header.Rule) (new : Header.Revision) :
    (Phase.ofRevised (.ok ⟨job.path, new.content, new.action⟩)).task e s job =
      Header.Document.store ⟨job.path, .onDisk, rule⟩ new >>= fun
        | .error cause => .done (.error (.ofDocumentError job.path none cause))
        | .ok _ => .done (.ok ⟨job.path, new.content, new.action⟩) := by
  unfold Phase.ofRevised Header.Document.store
  by_cases hchange : new.action.isChange
  · dsimp only
    rw [if_pos hchange, if_pos hchange, task_copying, Task.bind_assoc]
    refine congrArg (Header.replaceFile job.path new.content >>= ·) (funext fun written => ?_)
    cases written <;> rfl
  · dsimp only
    rw [if_neg hchange, if_neg hchange, task_ended]
    rfl

theorem task_loading (rule : Header.Rule) : (Phase.loading rule).task e s job =
    Header.Document.reviseFile ⟨job.path, .onDisk, rule⟩ >>= fun
      | .error cause => .done (.error (.ofDocumentError job.path none cause))
      | .ok new => .done (.ok ⟨job.path, new.content, new.action⟩) := by
  rw [Phase.task]
  unfold Header.Document.reviseFile
  dsimp only
  rw [Task.bind_assoc]
  refine congrArg (Task.call _) (funext fun t => ?_)
  cases t with
  | error cause =>
    rw [revised, Phase.ofRevised, task_ended]
    rfl
  | ok t =>
    have hload : ∀ f : Except Header.DocumentError Text → Task (Except Failure Edit),
        (((Task.done (Except.ok t)).bind fun t : Except IoError Text =>
          pure (t.mapError (.io job.path))) >>= f) = f (.ok t) := fun _ => rfl
    refine Eq.trans ?_ (hload _).symm
    unfold revised Header.Document.reviseText
    dsimp only
    cases rule.revise t with
    | error cause =>
      dsimp only
      rw [Phase.ofRevised, task_ended]
      rfl
    | ok new =>
      dsimp only [Except.mapError]
      rw [task_ofRevised rule, Task.bind_assoc]
      refine congrArg (_ >>= ·) (funext fun stored => ?_)
      cases stored <;> rfl

theorem task_ofRule (hsource : job.source = .onDisk) (rule : Header.Rule) :
    (Phase.ofRule job (.ok rule)).task e s job = apply job ⟨job.path, .onDisk, rule⟩ := by
  unfold apply Phase.ofRule
  rw [hsource, Job.content?, hsource]
  dsimp only
  cases !job.ignoreNonCommentText && !rule.isValid with
  | true =>
    rw [if_pos rfl, if_pos rfl, task_ended]
    rfl
  | false =>
    rw [if_neg Bool.false_ne_true, if_neg Bool.false_ne_true, task_loading]
    rfl

theorem task_documentOf (hsource : job.source = .onDisk) (born : Option Moment) :
    (match e.documentOf s job born with
      | .error cause => pure (.error (cause.failure job.content?))
      | .ok d => apply job d) = (Phase.ofRule job (e.ruleFor s job born)).task e s job := by
  unfold documentOf
  cases e.ruleFor s job born with
  | error cause =>
    rw [Phase.ofRule, task_ended, Job.content?, hsource]
    rfl
  | ok rule => rw [task_ofRule hsource, hsource]

end Task

theorem Phase.ofKind_file (e : Editor) (s : Header.Surroundings) (job : Job) :
    Phase.ofKind e s job (some .file) =
      if e.isDated job then .dating else .ofRule job (e.ruleFor s job none) := by
  rw [Phase.ofKind, if_pos rfl, isDated]
  rcases e.resolve job with cause | ⟨language, header | lines⟩ <;> rfl

theorem edit_eq (e : Editor) (s : Header.Surroundings) {job : Job} (hsource : job.source = .onDisk) :
    e.edit s job = Phase.looking.task e s job := by
  have hmissing : job.isMissing = Task.call (.kind job.path) fun kind => .done (!(kind == some .file)) := by
    unfold Job.isMissing
    rw [hsource]
    rfl
  unfold edit
  rw [document_eq, hmissing, Phase.task]
  refine congrArg (Task.call _) (funext fun kind => ?_)
  dsimp only [Task.bind]
  by_cases hkind : kind = some .file
  · rw [if_neg (by simp [hkind]), hkind, Phase.ofKind_file]
    cases e.isDated job with
    | true =>
      rw [if_pos rfl, if_pos rfl, Phase.task]
      exact congrArg (Task.call _) (funext fun born => task_documentOf hsource born)
    | false => exact task_documentOf hsource none
  · have hgone : (!(kind == some .file)) = true := by simpa using hkind
    rw [Phase.ofKind, if_neg hkind, if_pos hgone, task_ended, Job.content?, hsource]
    rfl

end Masthead.Editor
