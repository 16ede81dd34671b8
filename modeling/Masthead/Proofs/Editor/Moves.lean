import Masthead.Proofs.Editor.Phases

namespace Masthead.Editor
open FileSystem Header

def Phase.HasCopied : Phase → Prop
  | .inspecting _ | .marking _ _ | .replacing _ => True
  | _ => False

/-- A file that is edited, with the editor and the file system as it is at the start. -/
structure Site where
  editor : Editor
  surroundings : Surroundings
  start : FileSystem
  location : Location
  file : File

namespace Site

variable (σ : Site) (job : Job)

def Names : Prop := σ.start.entry job.path = .ok (σ.location, .file σ.file)

/-- What the rule for the job comes to if the file was created at `born`. -/
def rule (born : Option Moment) : Except CreationCause Header.Rule :=
  σ.editor.ruleFor σ.surroundings job born

def plan (born : Option Moment) (c : Content) : Except Failure Edit :=
  match σ.rule job born with
  | .error cause => .error (CreationError.failure ⟨job.path, cause⟩ none)
  | .ok rule =>
    if !job.ignoreNonCommentText && !rule.isValid then .error (.nonCommentText job.path none)
    else revised job rule c.decoded

def refusal? : Option IoError := Header.refusal? σ.start job.path

def spoiled? (t : Text) : Option IoError := Header.spoiled? σ.start (copyLocation σ.location) t

def renameFault? : Option IoError := σ.start.fault? true σ.location

/-- Why a text cannot be written back to the file, if it cannot. -/
def obstacle? (t : Text) : Option IoError :=
  match σ.refusal? job with
  | some cause => some cause
  | none =>
    match σ.spoiled? t with
    | some cause => some cause
    | none => σ.renameFault?

/-- What becomes of a job whose file was created at `born` and holds `c`, and what it holds then. -/
def edited (born : Option Moment) (c : Content) : Except Failure Edit × Content :=
  match σ.plan job born c with
  | .error failure => (.error failure, c)
  | .ok edit =>
    if edit.action.isChange then
      match σ.obstacle? job edit.content with
      | some cause => (.error (ioFailure job cause), c)
      | none => (.ok edit, .text edit.content)
    else (.ok edit, c)

/-- The copy with a text, where `n` was in its place before. -/
def written (n : Option Node) (t : Text) : File := { opened σ.start n with content := .text t }

/-- One step of editing the file. -/
inductive Moves : Phase → Cell → Phase → Cell → Prop
  | date {cell : Cell} : Moves .looking cell .dating cell
  | rule {phase : Phase} {cell : Cell} (early : phase = .looking ∨ phase = .dating) :
      Moves phase cell (.ofRule job (σ.rule job cell.file.born)) cell
  | revise {rule : Header.Rule} {cell : Cell} :
      Moves (.loading rule) cell (.ofRevised (revised job rule cell.file.content.decoded)) cell
  | refuse {edit : Edit} {cell : Cell} {cause : IoError} (refused : σ.refusal? job = some cause) :
      Moves (.copying edit) cell (.clearing cause) cell
  | deny {edit : Edit} {cell : Cell} (opened : σ.refusal? job = none)
      (locked : isReadOnly cell.copy) : Moves (.copying edit) cell (.clearing .permissionDenied) cell
  | spoil {edit : Edit} {file : File} {n : Option Node} {cause : IoError}
      (opened : σ.refusal? job = none) (free : ¬isReadOnly n)
      (spoiled : σ.spoiled? edit.content = some cause) :
      Moves (.copying edit) ⟨file, n⟩ (.clearing cause) ⟨file, some (.file (σ.written n []))⟩
  | copy {edit : Edit} {file : File} {n : Option Node}
      (opened : σ.refusal? job = none) (free : ¬isReadOnly n)
      (stored : σ.spoiled? edit.content = none) :
      Moves (.copying edit) ⟨file, n⟩ (.inspecting edit)
        ⟨file, some (.file (σ.written n edit.content))⟩
  | inspect {edit : Edit} {cell : Cell} :
      Moves (.inspecting edit) cell (.marking edit cell.file.permissions) cell
  | mark {edit : Edit} {permissions : Permissions} {file copy : File} :
      Moves (.marking edit permissions) ⟨file, some (.file copy)⟩ (.replacing edit)
        ⟨file, some (.file { copy with permissions })⟩
  | pass {edit : Edit} {permissions : Permissions} {file : File} :
      Moves (.marking edit permissions) ⟨file, none⟩ (.replacing edit) ⟨file, none⟩
  | lose {edit : Edit} {file : File} :
      Moves (.replacing edit) ⟨file, none⟩ (.clearing .notFound) ⟨file, none⟩
  | keep {edit : Edit} {file copy : File} {cause : IoError} (fault : σ.renameFault? = some cause) :
      Moves (.replacing edit) ⟨file, some (.file copy)⟩ (.clearing cause) ⟨file, some (.file copy)⟩
  | replace {edit : Edit} {file copy : File} (renamable : σ.renameFault? = none) :
      Moves (.replacing edit) ⟨file, some (.file copy)⟩ (.ended (.ok edit)) ⟨copy, none⟩
  | leave {cell : Cell} {cause refusal : IoError} (refused : σ.refusal? job = some refusal) :
      Moves (.clearing cause) cell (.ended (.error (ioFailure job cause))) cell
  | clear {cause : IoError} {file : File} {n : Option Node} (opened : σ.refusal? job = none) :
      Moves (.clearing cause) ⟨file, n⟩ (.ended (.error (ioFailure job cause))) ⟨file, none⟩

variable {σ job} {fs : FileSystem} {cell : Cell} {phase : Phase}

theorem ofKind_file_cases (e : Editor) (s : Surroundings) (job : Job) (born : Option Moment) :
    Phase.ofKind e s job (some .file) = .dating ∨
      Phase.ofKind e s job (some .file) = .ofRule job (e.ruleFor s job born) := by
  rw [Phase.ofKind_file]
  cases hdated : e.isDated job with
  | true => exact .inl rfl
  | false =>
    rw [ruleFor_of_not_isDated hdated born]
    exact .inr rfl

/-- A step moves the cell of the file on and leaves everything else alone. -/
def MovesOn (σ : Site) (job : Job) (phase : Phase) (cell : Cell) (fs : FileSystem) : Prop :=
  ∃ cell', σ.Moves job phase cell (phase.advance σ.editor σ.surroundings job fs).1 cell' ∧
    Shows σ.start σ.location cell' (phase.advance σ.editor σ.surroundings job fs).2 ∧
    AgreeOn {σ.location, copyLocation σ.location}ᶜ fs
      (phase.advance σ.editor σ.surroundings job fs).2

section Copy

variable {file : File} {n : Option Node} (hnames : σ.Names job)
  (h : Shows σ.start σ.location ⟨file, n⟩ fs)
include hnames h

theorem ne_directory (hopen : σ.refusal? job = none) : n ≠ some .directory := fun hn =>
  (h.locate_copy hnames hopen).2 (h.copy.trans hn)

theorem movesOn_copying (edit : Edit) : σ.MovesOn job (.copying edit) ⟨file, n⟩ fs := by
  rw [MovesOn, Phase.advance]
  cases hrefusal : σ.refusal? job with
  | some cause =>
    rw [writeText_of_refusal ((h.refusal?_eq hnames).trans hrefusal)]
    exact ⟨_, .refuse hrefusal, h, .refl _ fs⟩
  | none =>
    have hdir := ne_directory hnames h hrefusal
    by_cases hlocked : isReadOnly n
    · rw [h.writeText_locked hnames hrefusal (by rwa [h.copy])]
      exact ⟨_, .deny hrefusal hlocked, h, .refl _ fs⟩
    · rw [h.writeText_copy hnames hrefusal (by rwa [h.copy]), h.copy]
      cases hspoiled : Header.spoiled? σ.start (copyLocation σ.location) edit.content with
      | some cause => exact ⟨_, .spoil hrefusal hlocked hspoiled, h.put_copy hdir _⟩
      | none => exact ⟨_, .copy hrefusal hlocked hspoiled, h.put_copy hdir _⟩

theorem movesOn_marking (edit : Edit) (permissions : Permissions) (hopen : σ.refusal? job = none) :
    σ.MovesOn job (.marking edit permissions) ⟨file, n⟩ fs := by
  have hdir := ne_directory hnames h hopen
  rw [MovesOn, Phase.advance, h.setPermissions_copy hnames hopen, h.copy]
  obtain _ | copy | _ := n
  · exact ⟨_, .pass, h, .refl _ fs⟩
  · exact ⟨_, .mark, h.put_copy hdir _⟩
  · exact absurd rfl hdir

theorem movesOn_replacing (edit : Edit) (hopen : σ.refusal? job = none) :
    σ.MovesOn job (.replacing edit) ⟨file, n⟩ fs := by
  have hdir := ne_directory hnames h hopen
  rw [MovesOn, Phase.advance]
  obtain _ | copy | _ := n
  · rw [h.rename_gone hnames hopen h.copy]
    exact ⟨_, .lose, h, .refl _ fs⟩
  · rw [h.rename_copy hnames hopen h.copy]
    cases hfault : σ.start.fault? true σ.location with
    | some cause => exact ⟨_, .keep hfault, h, .refl _ fs⟩
    | none => exact ⟨_, .replace hfault, h.replace (by simp) copy⟩
  · exact absurd rfl hdir

theorem movesOn_clearing (cause : IoError) : σ.MovesOn job (.clearing cause) ⟨file, n⟩ fs := by
  rw [MovesOn, Phase.advance]
  cases hrefusal : σ.refusal? job with
  | some refusal =>
    rw [removeFile_of_refusal ((h.refusal?_eq hnames).trans hrefusal)]
    exact ⟨_, .leave hrefusal, h, .refl _ fs⟩
  | none =>
    rw [h.removeFile_copy hnames hrefusal, h.copy]
    refine ⟨_, .clear hrefusal, ?_⟩
    split_ifs with hgone
    · dsimp only at hgone
      subst hgone
      exact ⟨h, .refl _ fs⟩
    · exact h.erase_copy (ne_directory hnames h hrefusal)

end Copy

theorem exists_moves (hnames : σ.Names job) (h : Shows σ.start σ.location cell fs)
    (hlive : ∀ result, phase ≠ .ended result)
    (hopened : phase.HasCopied → σ.refusal? job = none) : σ.MovesOn job phase cell fs := by
  cases phase with
  | looking =>
    refine ⟨_, ?_, h, .refl _ fs⟩
    rw [Phase.advance, h.kind?_eq hnames]
    obtain hdate | hrule := ofKind_file_cases σ.editor σ.surroundings job cell.file.born
    · rw [hdate]
      exact .date
    · rw [hrule]
      exact .rule (.inl rfl)
  | dating =>
    rw [MovesOn, Phase.advance, h.birthTime?_eq hnames]
    exact ⟨_, .rule (.inr rfl), h, .refl _ fs⟩
  | loading rule =>
    rw [MovesOn, Phase.advance, h.readText_eq hnames]
    exact ⟨_, .revise, h, .refl _ fs⟩
  | copying edit => exact movesOn_copying hnames h edit
  | inspecting edit =>
    rw [MovesOn, Phase.advance, h.permissions?_eq hnames]
    exact ⟨_, .inspect, h, .refl _ fs⟩
  | marking edit permissions => exact movesOn_marking hnames h edit permissions (hopened trivial)
  | replacing edit => exact movesOn_replacing hnames h edit (hopened trivial)
  | clearing cause => exact movesOn_clearing hnames h cause
  | ended result => exact absurd rfl (hlive result)

/-! ## Editing without interruption -/

/-- The task ends with a result, and the file holds a content then. The place of the copy is no worse
than before. -/
def EndsWith (σ : Site) (job : Job) (phase : Phase) (fs : FileSystem)
    (ending : Except Failure Edit × Content) : Prop :=
  ((phase.task σ.editor σ.surroundings job).run fs).1 = ending.1 ∧
    ∃ cell, Shows σ.start σ.location cell ((phase.task σ.editor σ.surroundings job).run fs).2 ∧
      cell.file.content = ending.2 ∧ ¬isReadOnly cell.copy

theorem endsWith_ended (h : Shows σ.start σ.location cell fs) (hfree : ¬isReadOnly cell.copy)
    (result : Except Failure Edit) :
    σ.EndsWith job (.ended result) fs (result, cell.file.content) := by
  rw [EndsWith, task_ended]
  exact ⟨rfl, cell, h, rfl, hfree⟩

theorem ofRule_cases (σ : Site) (job : Job) (born : Option Moment) :
    (∃ failure, Phase.ofRule job (σ.rule job born) = .ended (.error failure) ∧
        ∀ c, σ.plan job born c = .error failure) ∨
      ∃ rule, Phase.ofRule job (σ.rule job born) = .loading rule ∧
        ∀ c, σ.plan job born c = revised job rule c.decoded := by
  unfold Phase.ofRule plan
  cases σ.rule job born with
  | error cause => exact .inl ⟨_, rfl, fun _ => rfl⟩
  | ok rule =>
    dsimp only
    split_ifs with hrefused
    · exact .inl ⟨_, rfl, fun _ => rfl⟩
    · exact .inr ⟨_, rfl, fun _ => rfl⟩

section Alone

variable (hnames : σ.Names job) (h : Shows σ.start σ.location cell fs)
include hnames h

theorem exists_first_step (phase : Phase) (hlive : ∀ result, phase ≠ .ended result)
    (hopened : phase.HasCopied → σ.refusal? job = none) :
    ∃ phase' cell' fs', σ.Moves job phase cell phase' cell' ∧ Shows σ.start σ.location cell' fs' ∧
      ∀ ending, σ.EndsWith job phase' fs' ending → σ.EndsWith job phase fs ending := by
  obtain ⟨cell', hmoves, hshows, -⟩ := exists_moves hnames h hlive hopened
  refine ⟨_, cell', _, hmoves, hshows, fun ending hends => ?_⟩
  rwa [EndsWith, Phase.run_task_advance] at hends

theorem endsWith_clearing (cause : IoError)
    (hfree : σ.refusal? job = none ∨ ¬isReadOnly cell.copy) :
    σ.EndsWith job (.clearing cause) fs (.error (ioFailure job cause), cell.file.content) := by
  obtain ⟨phase', cell', fs', hmoves, hshows, hends⟩ :=
    exists_first_step hnames h (.clearing cause) (by simp) False.elim
  cases hmoves with
  | rule early => simp at early
  | leave hrefused => exact hends _ (endsWith_ended hshows (hfree.resolve_left (by simp [hrefused])) _)
  | clear => exact hends _ (endsWith_ended hshows Bool.false_ne_true _)

theorem endsWith_replacing (edit : Edit) (hopen : σ.refusal? job = none)
    {copy : File} (hcopy : cell.copy = some (.file copy)) : σ.EndsWith job (.replacing edit) fs
      (match σ.renameFault? with
        | some cause => (.error (ioFailure job cause), cell.file.content)
        | none => (.ok edit, copy.content)) := by
  obtain ⟨phase', cell', fs', hmoves, hshows, hends⟩ :=
    exists_first_step hnames h (.replacing edit) (by simp) fun _ => hopen
  refine hends _ ?_
  cases hmoves with
  | rule early => simp at early
  | lose => cases hcopy
  | keep hfault =>
    rw [hfault]
    exact endsWith_clearing hnames hshows _ (.inl hopen)
  | replace hfault =>
    cases hcopy
    rw [hfault]
    exact endsWith_ended hshows Bool.false_ne_true _

theorem endsWith_inspecting (edit : Edit) (hopen : σ.refusal? job = none)
    {copy : File} (hcopy : cell.copy = some (.file copy)) : σ.EndsWith job (.inspecting edit) fs
      (match σ.renameFault? with
        | some cause => (.error (ioFailure job cause), cell.file.content)
        | none => (.ok edit, copy.content)) := by
  obtain ⟨phase', cell', fs', hmoves, hshows, hends⟩ :=
    exists_first_step hnames h (.inspecting edit) (by simp) fun _ => hopen
  refine hends _ ?_
  cases hmoves with
  | rule early => simp at early
  | inspect =>
    obtain ⟨phase'', cell'', fs'', hmoves', hshows', hends'⟩ :=
      exists_first_step hnames hshows (.marking edit cell.file.permissions) (by simp) fun _ => hopen
    refine hends' _ ?_
    cases hmoves' with
    | rule early => simp at early
    | pass => cases hcopy
    | mark =>
      cases hcopy
      have hreplaced := endsWith_replacing hnames hshows' edit hopen rfl
      exact hreplaced

variable (hfree : ¬isReadOnly cell.copy)
include hfree

theorem endsWith_copying (edit : Edit) : σ.EndsWith job (.copying edit) fs
    (match σ.obstacle? job edit.content with
      | some cause => (.error (ioFailure job cause), cell.file.content)
      | none => (.ok edit, .text edit.content)) := by
  obtain ⟨phase', cell', fs', hmoves, hshows, hends⟩ :=
    exists_first_step hnames h (.copying edit) (by simp) False.elim
  refine hends _ ?_
  rw [obstacle?]
  cases hmoves with
  | rule early => simp at early
  | refuse hrefusal =>
    rw [hrefusal]
    exact endsWith_clearing hnames hshows _ (.inr hfree)
  | deny hopen hlocked => exact absurd hlocked hfree
  | spoil hopen _ hspoiled =>
    rw [hopen, hspoiled]
    exact endsWith_clearing hnames hshows _ (.inl hopen)
  | copy hopen _ hspoiled =>
    rw [hopen, hspoiled]
    exact endsWith_inspecting hnames hshows edit hopen rfl

theorem endsWith_ofRule : σ.EndsWith job (.ofRule job (σ.rule job cell.file.born)) fs
    (σ.edited job cell.file.born cell.file.content) := by
  obtain ⟨failure, hphase, hplan⟩ | ⟨rule, hphase, hplan⟩ := ofRule_cases σ job cell.file.born
  · rw [hphase, edited, hplan]
    exact endsWith_ended h hfree _
  · obtain ⟨phase', cell', fs', hmoves, hshows, hends⟩ :=
      exists_first_step hnames h (.loading rule) (by simp) False.elim
    rw [hphase]
    refine hends _ ?_
    cases hmoves with
    | rule early => simp at early
    | revise =>
      rw [← hplan, edited]
      cases σ.plan job cell.file.born cell.file.content with
      | error failure => exact endsWith_ended hshows hfree _
      | ok edit =>
        dsimp only [Phase.ofRevised]
        by_cases hchange : edit.action.isChange
        · rw [if_pos hchange, if_pos hchange]
          exact endsWith_copying hnames hshows hfree edit
        · rw [if_neg hchange, if_neg hchange]
          exact endsWith_ended hshows hfree _

theorem shows_run_edit (hsource : job.source = .onDisk) :
    ((σ.editor.edit σ.surroundings job).run fs).1 =
        (σ.edited job cell.file.born cell.file.content).1 ∧
      ∃ after, Shows σ.start σ.location after ((σ.editor.edit σ.surroundings job).run fs).2 ∧
        after.file.content = (σ.edited job cell.file.born cell.file.content).2 ∧
        ¬isReadOnly after.copy := by
  obtain ⟨phase', cell', fs', hmoves, hshows, hends⟩ :=
    exists_first_step hnames h .looking (by simp) False.elim
  rw [edit_eq σ.editor σ.surroundings hsource]
  refine hends (σ.edited job cell.file.born cell.file.content) ?_
  cases hmoves with
  | rule => exact endsWith_ofRule hnames hshows hfree
  | date =>
    obtain ⟨phase', cell', fs', hmoves, hshows, hends⟩ :=
      exists_first_step hnames hshows .dating (by simp) False.elim
    refine hends _ ?_
    cases hmoves with
    | rule => exact endsWith_ofRule hnames hshows hfree

end Alone

end Site

end Masthead.Editor
