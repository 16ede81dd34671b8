import Masthead.Proofs.Header.Replacement

/-!
# Copies that are shared

Different paths of one file have one copy. While other tasks replace the same file, the path of the
file leads to whatever was renamed over it last, and the path of the copy leads to what was written
there last, or to nothing. Whether a copy can be opened depends on nothing but its permissions.
-/
namespace Masthead
open FileSystem

namespace Header

def copyLocation (l : Location) : Location := l.dropLast ++ [copyName (l.getLast?.getD [])]

@[simp] theorem copyLocation_concat (directory : Location) (name : Name) :
    copyLocation (directory ++ [name]) = directory ++ [copyName name] := by simp [copyLocation]

theorem copyLocation_ne {l : Location} (hl : l ≠ []) : copyLocation l ≠ l := by
  obtain ⟨directory, name, rfl⟩ := (List.eq_nil_or_concat l).resolve_left hl
  rw [List.concat_eq_append, copyLocation_concat]
  exact copy_ne directory name

/-- Why no copy of the file that a path names can be opened, whatever file is in its place. -/
def refusal? (fs : FileSystem) (p : Path) : Option IoError :=
  match fs.locate (temporaryPath p) with
  | .error cause => some cause
  | .ok (.existing _ .directory) => some .isADirectory
  | .ok _ => none

def isReadOnly : Option Node → Bool
  | some (.file file) => file.permissions.readOnly
  | _ => false

/-- What a text is written to: the file that is there, or a new one. -/
def opened (fs : FileSystem) : Option Node → File
  | some (.file file) => file
  | _ => { content := .text [], born := fs.clock }

/-- Why a text cannot be stored at a location where a file was opened, if it cannot. -/
def spoiled? (fs : FileSystem) (l : Location) (t : Text) : Option IoError :=
  if t = [] then none else fs.fault? false l

/-- The directories are those of `fs₀`, and the file is at `l`. -/
structure Holds (fs₀ : FileSystem) (l : Location) (file : File) (fs : FileSystem) : Prop where
  same : AgreeOn ∅ fs₀ fs
  node : fs.nodeAt? l = some (.file file)

variable {fs₀ fs : FileSystem} {p : Path} {l : Location} {file₀ file copy : File} {t : Text}
  {cause : IoError}

theorem writeText_of_refusal (h : refusal? fs p = some cause) (t : Text) :
    fs.writeText (temporaryPath p) t = (.error cause, fs) := by
  have hopen : fs.openForWriting (temporaryPath p) = .error cause := by
    unfold refusal? at h
    unfold openForWriting
    rcases hplace : fs.locate (temporaryPath p) with e | (⟨k, _ | _⟩ | k) <;> rw [hplace] at h <;>
      simp_all [endsWithSlash_temporaryPath, bind, Except.bind]
  rw [writeText, store, hopen]

theorem removeFile_of_refusal (h : refusal? fs p = some cause) :
    fs.removeFile (temporaryPath p) = fs := by
  unfold refusal? at h
  unfold removeFile entry
  rcases hplace : fs.locate (temporaryPath p) with e | (⟨k, _ | _⟩ | k) <;> rw [hplace] at h <;>
    simp_all [bind, Except.bind, Node.kind]

section Entry

variable (h₀ : fs₀.entry p = .ok (l, .file file₀)) (h : Holds fs₀ l file fs)
include h₀ h

theorem Holds.entry_eq : fs.entry p = .ok (l, .file file) := by
  have hfile := locate_of_entry h₀
  have hlocate := locate_congr hfile h.same.workingDirectory (fun k => (h.same.directory k).mpr)
    fun _ => by rw [Place.location, h.node, Option.isSome_some]
  rw [Place.location, placeAt_of_some h.node] at hlocate
  simp [entry, hlocate, endsWithSlash_of_entry h₀, bind, Except.bind]

theorem Holds.kind?_eq : fs.kind? p = some .file := by simp [kind?, h.entry_eq h₀, Node.kind]

theorem Holds.birthTime?_eq : fs.birthTime? p = file.born := by rw [birthTime?, h.entry_eq h₀]

theorem Holds.permissions?_eq : fs.permissions? p = some file.permissions := by
  rw [permissions?, h.entry_eq h₀]

theorem Holds.readText_eq : fs.readText p = file.content.decoded :=
  readText_of_entry (h.entry_eq h₀)

end Entry

/-- Where the directories are the same, a path that leads to a file leads to whatever file is there. -/
theorem kind?_of_agreeOn {now : FileSystem} (hsame : AgreeOn ∅ now fs)
    (hfile : ∀ file, now.nodeAt? (p.target now.workingDirectory) = some (.file file) →
      ∃ file', fs.nodeAt? (p.target now.workingDirectory) = some (.file file'))
    (hkind : now.kind? p = some .file) : fs.kind? p = some .file := by
  obtain ⟨l, file, hentry⟩ := exists_file_of_kind? hkind
  obtain rfl : l = p.target now.workingDirectory := location_of_locate (locate_of_entry hentry)
  obtain ⟨file', hnode⟩ := hfile file (nodeAt?_of_locate (locate_of_entry hentry))
  have hholds : Holds now _ file' fs := ⟨hsame, hnode⟩
  exact hholds.kind?_eq hentry

/-- Where the path of a copy leads in a file system that holds the file, or why it leads nowhere, does
not depend on the files there. -/
theorem exists_locate_copy (h₀ : fs₀.entry p = .ok (l, .file file₀)) :
    (∃ cause, ∀ {file fs}, Holds fs₀ l file fs → fs.locate (temporaryPath p) = .error cause) ∨
      ∀ {file fs}, Holds fs₀ l file fs →
        fs.locate (temporaryPath p) = .ok (fs.placeAt (copyLocation l)) := by
  obtain ⟨blocked, hlocate⟩ := exists_locate_withFileName h₀ (isName_copy p)
  rw [← temporaryPath_eq] at hlocate
  cases blocked with
  | some cause => exact .inl ⟨cause, fun h => hlocate h.same (h.entry_eq h₀)⟩
  | none =>
    obtain ⟨directory, name, -, rfl, hcopy⟩ := location_copy h₀ (hlocate (.refl ∅ fs₀) h₀)
    rw [location_placeAt] at hcopy
    rw [copyLocation_concat, ← hcopy]
    exact .inr fun h => hlocate h.same (h.entry_eq h₀)

/-! ## What can be done to the copy -/

section Place

variable (hplace : fs.locate (temporaryPath p) = .ok (fs.placeAt l))
include hplace

theorem openForWriting_of_placeAt (hdir : fs.nodeAt? l ≠ some .directory) :
    fs.openForWriting (temporaryPath p) =
      if isReadOnly (fs.nodeAt? l) then .error .permissionDenied
      else .ok (l, opened fs (fs.nodeAt? l)) := by
  rw [openForWriting, hplace, endsWithSlash_temporaryPath, placeAt]
  rcases hnode : fs.nodeAt? l with _ | (file | _)
  · rfl
  · rfl
  · exact absurd hnode hdir

theorem entry_of_placeAt : fs.entry (temporaryPath p) =
    match fs.nodeAt? l with
    | some node => .ok (l, node)
    | none => .error .notFound := by
  rw [entry, hplace, endsWithSlash_temporaryPath, placeAt]
  cases fs.nodeAt? l <;> rfl

theorem refusal?_of_placeAt : refusal? fs p =
    if fs.nodeAt? l = some .directory then some .isADirectory else none := by
  rw [refusal?, hplace, placeAt]
  rcases fs.nodeAt? l with _ | (file | _) <;> rfl

end Place

section Copy

variable (h₀ : fs₀.entry p = .ok (l, .file file₀)) (h : Holds fs₀ l file fs)
include h₀ h

theorem Holds.refusal?_eq : refusal? fs p = refusal? fs₀ p := by
  have hholds₀ : Holds fs₀ l file₀ fs₀ := ⟨.refl _ _, nodeAt?_of_locate (locate_of_entry h₀)⟩
  obtain ⟨cause, hcause⟩ | hplace := exists_locate_copy h₀
  · rw [refusal?, refusal?, hcause h, hcause hholds₀]
  · simp only [refusal?_of_placeAt (hplace h), refusal?_of_placeAt (hplace hholds₀),
      h.same.directory]

variable (hopen : refusal? fs₀ p = none)
include hopen

theorem Holds.locate_copy :
    fs.locate (temporaryPath p) = .ok (fs.placeAt (copyLocation l)) ∧
      fs.nodeAt? (copyLocation l) ≠ some .directory := by
  rw [← h.refusal?_eq h₀] at hopen
  obtain ⟨cause, hcause⟩ | hplace := exists_locate_copy h₀
  · simp [refusal?, hcause h] at hopen
  · refine ⟨hplace h, fun hdir => ?_⟩
    rw [refusal?_of_placeAt (hplace h), if_pos hdir] at hopen
    cases hopen

theorem Holds.writeText_locked (hlocked : isReadOnly (fs.nodeAt? (copyLocation l))) (t : Text) :
    fs.writeText (temporaryPath p) t = (.error .permissionDenied, fs) := by
  obtain ⟨hplace, hdir⟩ := h.locate_copy h₀ hopen
  rw [writeText, store, openForWriting_of_placeAt hplace hdir, if_pos hlocked]

theorem Holds.writeText_copy (hfree : ¬isReadOnly (fs.nodeAt? (copyLocation l))) (t : Text) :
    fs.writeText (temporaryPath p) t =
      match spoiled? fs₀ (copyLocation l) t with
      | some cause => (.error cause, fs.put (copyLocation l)
          (.file { opened fs₀ (fs.nodeAt? (copyLocation l)) with content := .text [] }))
      | none => (.ok (), fs.put (copyLocation l)
          (.file { opened fs₀ (fs.nodeAt? (copyLocation l)) with content := .text t })) := by
  obtain ⟨hplace, hdir⟩ := h.locate_copy h₀ hopen
  have hopened : ∀ n, opened fs n = opened fs₀ n := fun n => by
    unfold opened
    rw [h.same.clock]
  rw [writeText, store, openForWriting_of_placeAt hplace hdir, if_neg hfree, spoiled?,
    ← h.same.fault?_eq, hopened]
  dsimp only
  cases (if t = [] then none else fs.fault? false (copyLocation l)) <;> rfl

theorem Holds.setPermissions_copy (new : Permissions) : fs.setPermissions (temporaryPath p) new =
    match fs.nodeAt? (copyLocation l) with
    | some (.file copy) => fs.put (copyLocation l) (.file { copy with permissions := new })
    | _ => fs := by
  obtain ⟨hplace, -⟩ := h.locate_copy h₀ hopen
  rw [setPermissions, entry_of_placeAt hplace]
  rcases fs.nodeAt? (copyLocation l) with _ | (copy | _) <;> rfl

theorem Holds.renameTarget_eq : fs.renameTarget p = .ok l := by
  obtain ⟨hplace, -⟩ := h.locate_copy h₀ hopen
  obtain ⟨directory, name, hname, rfl, -⟩ := location_copy (h.entry_eq h₀) hplace
  obtain ⟨init, hpieces, hdot, hdots⟩ := exists_pieces_of_entry (h.entry_eq h₀) hname
  rw [renameTarget, locate_of_entry (h.entry_eq h₀), hpieces, List.getLast?_concat]
  simpa [bind, Except.bind, endsWithSlash_of_entry h₀] using And.intro hdot hdots

theorem Holds.rename_gone (hgone : fs.nodeAt? (copyLocation l) = none) :
    fs.rename (temporaryPath p) p = (.error .notFound, fs) := by
  rw [rename, entry_of_placeAt (h.locate_copy h₀ hopen).1, hgone]

theorem Holds.rename_copy (hcopy : fs.nodeAt? (copyLocation l) = some (.file copy)) :
    fs.rename (temporaryPath p) p =
      match fs₀.fault? true l with
      | some cause => (.error cause, fs)
      | none => (.ok (), (fs.erase (copyLocation l)).put l (.file copy)) := by
  have hne : copyLocation l ≠ l := by
    have hfile : fs.nodeAt? l ≠ some .directory := by simp [h.node]
    exact copyLocation_ne (ne_nil_of_nodeAt? hfile)
  rw [rename, entry_of_placeAt (h.locate_copy h₀ hopen).1, hcopy, h.renameTarget_eq h₀ hopen,
    ← h.same.fault?_eq]
  dsimp only
  cases fs.fault? true l with
  | some cause => rfl
  | none => exact congrArg (Except.ok (), ·) (if_neg hne)

theorem Holds.removeFile_copy : fs.removeFile (temporaryPath p) =
    if fs.nodeAt? (copyLocation l) = none then fs else fs.erase (copyLocation l) := by
  obtain ⟨hplace, hdir⟩ := h.locate_copy h₀ hopen
  rw [removeFile, entry_of_placeAt hplace]
  rcases hnode : fs.nodeAt? (copyLocation l) with _ | (copy | _)
  · rfl
  · rfl
  · exact absurd hnode hdir

end Copy

/-! ## The file and its copy -/

/-- A file, and what is at the place of its copy. -/
structure Cell where
  file : File
  copy : Option Node

/-- The directories are those of `fs₀`, and at `l` and at the place of the copy is what the cell says. -/
structure Shows (fs₀ : FileSystem) (l : Location) (cell : Cell) (fs : FileSystem) : Prop
    extends Holds fs₀ l cell.file fs where
  copy : fs.nodeAt? (copyLocation l) = cell.copy

namespace Shows

variable {cell : Cell} (h : Shows fs₀ l cell fs)
include h

theorem ne_nil : l ≠ [] := by
  have hfile : fs.nodeAt? l ≠ some .directory := by simp [h.node]
  exact ne_nil_of_nodeAt? hfile

theorem congr {fs' : FileSystem} (hsame : AgreeOn {l, copyLocation l} fs fs') :
    Shows fs₀ l cell fs' where
  same := h.same.trans (hsame.mono (Set.empty_subset _))
  node := by rw [hsame.node l (Set.mem_insert _ _), h.node]
  copy := by rw [hsame.node _ (Set.mem_insert_of_mem _ rfl), h.copy]

variable (hdir : cell.copy ≠ some .directory)
include hdir

theorem put_copy (new : File) :
    Shows fs₀ l { cell with copy := some (.file new) } (fs.put (copyLocation l) (.file new)) ∧
      AgreeOn {l, copyLocation l}ᶜ fs (fs.put (copyLocation l) (.file new)) := by
  rw [← h.copy] at hdir
  have hne := copyLocation_ne h.ne_nil
  have hnil := ne_nil_of_nodeAt? hdir
  refine ⟨⟨⟨h.same.trans (agreeOn_put (Set.notMem_empty _) hdir new), ?_⟩, ?_⟩,
    agreeOn_put (by simp) hdir new⟩
  · rw [nodeAt?_put hnil, if_neg hne.symm, h.node]
  · rw [nodeAt?_put hnil, if_pos rfl]

theorem erase_copy :
    Shows fs₀ l { cell with copy := none } (fs.erase (copyLocation l)) ∧
      AgreeOn {l, copyLocation l}ᶜ fs (fs.erase (copyLocation l)) := by
  rw [← h.copy] at hdir
  have hne := copyLocation_ne h.ne_nil
  have hnil := ne_nil_of_nodeAt? hdir
  refine ⟨⟨⟨h.same.trans (agreeOn_erase (Set.notMem_empty _) hdir), ?_⟩, ?_⟩,
    agreeOn_erase (by simp) hdir⟩
  · rw [nodeAt?_erase hnil, if_neg hne.symm, h.node]
  · rw [nodeAt?_erase hnil, if_pos rfl]

theorem replace (new : File) :
    Shows fs₀ l ⟨new, none⟩ ((fs.erase (copyLocation l)).put l (.file new)) ∧
      AgreeOn {l, copyLocation l}ᶜ fs ((fs.erase (copyLocation l)).put l (.file new)) := by
  obtain ⟨herased, hsame⟩ := h.erase_copy hdir
  have hfile : (fs.erase (copyLocation l)).nodeAt? l ≠ some .directory := by simp [herased.node]
  refine ⟨⟨⟨herased.same.trans (agreeOn_put (Set.notMem_empty _) hfile new), ?_⟩, ?_⟩,
    hsame.trans (agreeOn_put (by simp) hfile new)⟩
  · rw [nodeAt?_put h.ne_nil, if_pos rfl]
  · rw [nodeAt?_put h.ne_nil, if_neg (copyLocation_ne h.ne_nil), herased.copy]

end Shows

/-- The files with another birth time for the one at `l`. -/
def redated (fs : FileSystem) (l : Location) (born : Option Moment) : FileSystem :=
  match fs.nodeAt? l with
  | some (.file file) => fs.put l (.file { file with born })
  | _ => fs

theorem kind?_redated {born : Option Moment} (h : (redated fs l born).kind? p = some .file) :
    fs.kind? p = some .file := by
  rw [redated] at h
  split at h
  · rename_i file hnode
    have hl : fs.nodeAt? l ≠ some .directory := by simp [hnode]
    refine kind?_of_agreeOn (agreeOn_put (Set.notMem_empty _) hl _).symm ?_ h
    intro file' hfile
    rw [nodeAt?_put (ne_nil_of_nodeAt? hl)] at hfile
    split at hfile
    · rename_i heq
      exact ⟨file, heq ▸ hnode⟩
    · exact ⟨file', hfile⟩
  · exact h

theorem Shows.redated {cell : Cell} (h : Shows fs₀ l cell fs) (born : Option Moment) :
    Shows fs₀ l { cell with file := { cell.file with born } } (redated fs l born) := by
  have hfile : fs.nodeAt? l ≠ some .directory := by simp [h.node]
  rw [Header.redated, h.node]
  dsimp only
  refine ⟨⟨h.same.trans (agreeOn_put (Set.notMem_empty _) hfile _), ?_⟩, ?_⟩
  · rw [nodeAt?_put h.ne_nil, if_pos rfl]
  · rw [nodeAt?_put h.ne_nil, if_neg (copyLocation_ne h.ne_nil), h.copy]

end Header
end Masthead
