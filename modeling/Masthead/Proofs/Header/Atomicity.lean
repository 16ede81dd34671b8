import Masthead.Proofs.Header.Replacement

namespace Masthead
open FileSystem

namespace Task

variable {α β : Type} {P : FileSystem → Prop} {fs : FileSystem}

/-- Run alone, the task meets the property before and after each of its operations. -/
def Throughout (P : FileSystem → Prop) : Task α → FileSystem → Prop
  | done _, fs => P fs
  | call op next, fs => P fs ∧ (next (op.apply fs).1).Throughout P (op.apply fs).2

theorem Throughout.start {t : Task α} (h : t.Throughout P fs) : P fs := by
  cases t with
  | done a => exact h
  | call op next => exact h.1

theorem throughout_bind {t : Task α} {f : α → Task β} :
    (t >>= f).Throughout P fs ↔
      t.Throughout P fs ∧ (f (t.run fs).1).Throughout P (t.run fs).2 := by
  induction t generalizing fs with
  | done a => exact ⟨fun h => ⟨h.start, h⟩, fun h => h.2⟩
  | call op next ih => exact (and_congr_right fun _ => ih _).trans and_assoc.symm

theorem Throughout.last {t : Task α} (h : t.Throughout P fs) : P (t.run fs).2 := by
  induction t generalizing fs with
  | done a => exact h
  | call op next ih => exact ih _ h.2

theorem ReadOnly.throughout {t : Task α} (h : t.ReadOnly) (hP : P fs) : t.Throughout P fs := by
  induction t with
  | done a => exact hP
  | call op next ih =>
    refine ⟨hP, ?_⟩
    rw [h.1 fs]
    exact ih _ (h.2 _)

section Operations

variable {p q : Path} {t : Text}

theorem throughout_write : (write p t).Throughout P fs ↔ P fs ∧ P (fs.writeText p t).2 := Iff.rfl

theorem throughout_permissions : (permissions p).Throughout P fs ↔ P fs ∧ P fs := Iff.rfl

theorem throughout_setPermissions (new : Permissions) :
    (setPermissions p new).Throughout P fs ↔ P fs ∧ P (fs.setPermissions p new) := Iff.rfl

theorem throughout_rename : (rename p q).Throughout P fs ↔ P fs ∧ P (fs.rename p q).2 := Iff.rfl

theorem throughout_remove (a : α) : (remove p >>= fun _ => pure a).Throughout P fs ↔
    P fs ∧ P (fs.removeFile p) := Iff.rfl

end Operations

/-- The file system after the first operations of a task. -/
def stateAfter : ℕ → Task α → FileSystem → FileSystem
  | 0, _, fs => fs
  | n + 1, t, fs => stateAfter n (t.step fs).1 (t.step fs).2

theorem Throughout.stateAfter {t : Task α} (h : t.Throughout P fs) (n : ℕ) :
    P (t.stateAfter n fs) := by
  induction n generalizing t fs with
  | zero => exact h.start
  | succ n ih =>
    cases t with
    | done a => exact ih h
    | call op next => exact ih h.2

end Task

namespace Header

variable {fs : FileSystem} {p : Path} {l : Location} {file : File} {content : Text}

/-- The copy of a file as it is written where there was none. -/
def created (fs : FileSystem) (content : Text) : File :=
  { content := .text content, born := fs.clock }

/-- Why the copy of a file cannot be written, or not be renamed over the file. -/
def replacementError? (fs : FileSystem) (p : Path) (content : Text) : Option IoError :=
  match fs.writeText (temporaryPath p) content with
  | (.error e, _) => some e
  | (.ok _, written) =>
    match (written.rename (temporaryPath p) p).1 with
    | .error e => some e
    | .ok _ => none

section Vacant

variable (h : fs.entry p = .ok (l, .file file)) (hvacant : fs.kind? (temporaryPath p) = none)
include hvacant

theorem locate_copy_cases : (∃ e, fs.locate (temporaryPath p) = .error e) ∨
    ∃ k, fs.locate (temporaryPath p) = .ok (.vacant k) := by
  cases hcopy : fs.locate (temporaryPath p) with
  | error e => exact .inl ⟨e, rfl⟩
  | ok place =>
    cases place with
    | vacant k => exact .inr ⟨k, rfl⟩
    | existing k node =>
      simp [kind?, entry, hcopy, endsWithSlash_temporaryPath, bind, Except.bind] at hvacant

theorem writeText_copy_cases (content : Text) :
    (∃ e, fs.writeText (temporaryPath p) content = (.error e, fs)) ∨
      ∃ k, fs.locate (temporaryPath p) = .ok (.vacant k) ∧
        ((∃ e, fs.writeText (temporaryPath p) content = (.error e, fs.put k (.file (created fs [])))) ∨
          fs.writeText (temporaryPath p) content =
            (.ok (), fs.put k (.file (created fs content)))) := by
  obtain ⟨e, hcopy⟩ | ⟨k, hcopy⟩ := locate_copy_cases hvacant
  · left
    exact ⟨e, by simp [writeText, store, openForWriting, hcopy, bind, Except.bind]⟩
  · refine .inr ⟨k, hcopy, ?_⟩
    have hopen : fs.openForWriting (temporaryPath p) = .ok (k, created fs []) := by
      simp [created, openForWriting, hcopy, endsWithSlash_temporaryPath, bind, Except.bind]
    simp only [writeText, store, hopen]
    cases (if content = [] then none else fs.fault? false k) with
    | some e => exact .inl ⟨e, rfl⟩
    | none => exact .inr rfl

end Vacant

section Copy

variable {k : Location} (hcopy : fs.locate (temporaryPath p) = .ok (.vacant k)) (new : File)
include hcopy

theorem entry_copy : (fs.put k (.file new)).entry (temporaryPath p) = .ok (k, .file new) := by
  have hlocate := locate_put hcopy (by simp [Place.location, nodeAt?_of_vacant hcopy]) new
  rw [Place.location] at hlocate
  simp [entry, hlocate, endsWithSlash_temporaryPath, bind, Except.bind]

theorem erase_copy : (fs.put k (.file new)).erase k = fs := by
  have hnone := nodeAt?_of_vacant hcopy
  have hdir : fs.nodeAt? k ≠ some .directory := by simp [hnone]
  exact erase_put_of_vacant (ne_nil_of_nodeAt? hdir) hnone _

theorem removeFile_copy : (fs.put k (.file new)).removeFile (temporaryPath p) = fs := by
  rw [removeFile, entry_copy hcopy]
  exact erase_copy hcopy new

end Copy

section Sibling

variable {k : Location} (h : fs.entry p = .ok (l, .file file))
  (hcopy : fs.locate (temporaryPath p) = .ok (.vacant k))
include h hcopy

theorem ne_copy : k ≠ l := by
  rintro rfl
  have hnone := nodeAt?_of_vacant hcopy
  simp [nodeAt?_of_locate (locate_of_entry h)] at hnone

theorem agreeOn_copy (new : File) : AgreeOn {l} fs (fs.put k (.file new)) :=
  agreeOn_put (Set.mem_singleton_iff.not.mpr (ne_copy h hcopy)) (by simp [nodeAt?_of_vacant hcopy]) _

theorem rename_copy_cases :
    (∃ e, ∀ new, (fs.put k (.file new)).rename (temporaryPath p) p =
      (.error e, fs.put k (.file new))) ∨
    ∀ new, (fs.put k (.file new)).rename (temporaryPath p) p = (.ok (), fs.put l (.file new)) := by
  have htargets : ∀ new, (fs.put k (.file new)).renameTarget p = fs.renameTarget p := fun new =>
    (leadsInto_of_entry h).settled.renameTarget_eq (agreeOn_copy h hcopy new)
  have hfaults : ∀ new, (fs.put k (.file new)).fault? true l = fs.fault? true l := fun new =>
    (agreeOn_copy h hcopy new).fault?_eq ..
  cases htarget : fs.renameTarget p with
  | error e => exact .inl ⟨e, fun new => by rw [rename, entry_copy hcopy, htargets, htarget]⟩
  | ok stop =>
    obtain ⟨place, hplace, rfl, -⟩ := location_of_renameTarget htarget
    obtain rfl : l = place.location :=
      (location_of_locate (locate_of_entry h)).trans (location_of_locate hplace).symm
    cases hfault : fs.fault? true place.location with
    | some e =>
      refine .inl ⟨e, fun new => ?_⟩
      rw [rename, entry_copy hcopy, htargets, htarget]
      simp [hfaults, hfault]
    | none =>
      refine .inr fun new => ?_
      rw [rename, entry_copy hcopy, htargets, htarget]
      simp [hfaults, hfault, ne_copy h hcopy, erase_copy hcopy]

theorem run_copyPermissions_copy (content : Text) :
    (copyPermissions p).run (fs.put k (.file (created fs content))) =
      ((), fs.put k (.file (replacement fs file content))) := by
  have hfile := ((leadsInto_of_entry h).settled.entry_eq
    (agreeOn_copy h hcopy (created fs content))).trans h
  rw [run_copyPermissions hfile (entry_copy hcopy _), put_put]
  rfl

theorem throughout_copyPermissions {P : FileSystem → Prop}
    (hwritten : P (fs.put k (.file (created fs content))))
    (hmarked : P (fs.put k (.file (replacement fs file content)))) :
    (copyPermissions p).Throughout P (fs.put k (.file (created fs content))) := by
  have hrun := run_copyPermissions_copy h hcopy content
  rw [copyPermissions, Task.run_bind, Task.run_permissions] at hrun
  rw [copyPermissions, Task.throughout_bind, Task.throughout_permissions, Task.run_permissions]
  refine ⟨⟨hwritten, hwritten⟩, ?_⟩
  cases hnew : (fs.put k (.file (created fs content))).permissions? p with
  | none => exact hwritten
  | some new =>
    rw [hnew] at hrun
    have hlast : (fs.put k (.file (created fs content))).setPermissions (temporaryPath p) new =
        fs.put k (.file (replacement fs file content)) := congrArg Prod.snd hrun
    exact (Task.throughout_setPermissions new).mpr ⟨hwritten, hlast ▸ hmarked⟩

end Sibling

theorem removeFile_of_vacant {q : Path} (hvacant : fs.kind? q = none) : fs.removeFile q = fs := by
  rw [removeFile]
  split
  · rename_i hentry
    simp [kind?, hentry] at hvacant
  · rfl

section Vacant

variable (h : fs.entry p = .ok (l, .file file)) (hvacant : fs.kind? (temporaryPath p) = none)
include h hvacant

theorem run_replaceFile_of_vacant (content : Text) : (replaceFile p content).run fs =
    match replacementError? fs p content with
    | some e => (.error e, fs)
    | none => (.ok (), fs.put l (.file (replacement fs file content))) := by
  rw [replaceFile, Task.run_bind, Task.run_write, replacementError?]
  obtain ⟨e, hwrite⟩ | ⟨k, hcopy, ⟨e, hwrite⟩ | hwrite⟩ := writeText_copy_cases hvacant content
  · rw [hwrite]
    exact congrArg (Prod.mk _) (removeFile_of_vacant hvacant)
  · rw [hwrite]
    exact congrArg (Prod.mk _) (removeFile_copy hcopy _)
  · rw [hwrite]
    dsimp only
    rw [Task.run_bind, run_copyPermissions_copy h hcopy]
    dsimp only
    rw [Task.run_bind, Task.run_rename]
    obtain ⟨e, hrename⟩ | hrename := rename_copy_cases h hcopy
    · rw [hrename, hrename]
      exact congrArg (Prod.mk _) (removeFile_copy hcopy _)
    · rw [hrename, hrename]
      rfl

theorem throughout_replaceFile {P : FileSystem → Prop} (hbefore : P fs)
    (hcopies : ∀ k new, fs.locate (temporaryPath p) = .ok (.vacant k) → P (fs.put k (.file new)))
    (hafter : P (fs.put l (.file (replacement fs file content)))) :
    (replaceFile p content).Throughout P fs := by
  rw [replaceFile, Task.throughout_bind, Task.throughout_write, Task.run_write]
  obtain ⟨e, hwrite⟩ | ⟨k, hcopy, ⟨e, hwrite⟩ | hwrite⟩ := writeText_copy_cases hvacant content
  · rw [hwrite]
    dsimp only
    rw [Task.throughout_remove, removeFile_of_vacant hvacant]
    exact ⟨⟨hbefore, hbefore⟩, hbefore, hbefore⟩
  · have hwritten := hcopies k (created fs []) hcopy
    rw [hwrite]
    dsimp only
    rw [Task.throughout_remove, removeFile_copy hcopy]
    exact ⟨⟨hbefore, hwritten⟩, hwritten, hbefore⟩
  · have hwritten := hcopies k (created fs content) hcopy
    have hmarked := hcopies k (replacement fs file content) hcopy
    rw [hwrite]
    dsimp only
    rw [Task.throughout_bind, run_copyPermissions_copy h hcopy]
    refine ⟨⟨hbefore, hwritten⟩, throughout_copyPermissions h hcopy hwritten hmarked, ?_⟩
    rw [Task.throughout_bind, Task.throughout_rename, Task.run_rename]
    obtain ⟨e, hrename⟩ | hrename := rename_copy_cases h hcopy
    · rw [hrename]
      dsimp only
      rw [Task.throughout_remove, removeFile_copy hcopy]
      exact ⟨⟨hmarked, hmarked⟩, hmarked, hbefore⟩
    · rw [hrename]
      exact ⟨⟨hmarked, hafter⟩, hafter⟩

theorem throughout_reviseFile {P : FileSystem → Prop} {rule : Rule} {t : Text}
    (htext : fs.readText p = .ok t) (hbefore : P fs)
    (hcopies : ∀ k new, fs.locate (temporaryPath p) = .ok (.vacant k) → P (fs.put k (.file new)))
    (hafter : ∀ new, rule.revise t = .ok new → P (fs.put l (.file (replacement fs file new.content)))) :
    (Document.reviseFile ⟨p, .onDisk, rule⟩).Throughout P fs := by
  unfold Document.reviseFile
  rw [Task.throughout_bind, run_load, htext]
  refine ⟨⟨hbefore, hbefore⟩, ?_⟩
  dsimp only [Document.reviseText, Except.mapError]
  cases hnew : rule.revise t with
  | error cause => exact hbefore
  | ok new =>
    have hstore : (Document.store ⟨p, .onDisk, rule⟩ new).Throughout P fs := by
      unfold Document.store
      dsimp only
      split
      · have hreplace := throughout_replaceFile h hvacant hbefore hcopies (hafter new hnew)
        exact Task.throughout_bind.mpr ⟨hreplace, hreplace.last⟩
      · exact hbefore
    dsimp only
    refine Task.throughout_bind.mpr ⟨hstore, ?_⟩
    cases ((Document.store ⟨p, .onDisk, rule⟩ new).run fs).1 with
    | error e => exact hstore.last
    | ok => exact hstore.last

end Vacant

end Header
end Masthead
