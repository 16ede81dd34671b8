import Mathlib.Data.Set.BooleanAlgebra
import Mathlib.Order.CompletePartialOrder
import Masthead.Proofs.FileSystem.Locate
import Masthead.Task

/-!
# What file operations read and change

An operation whose paths are settled by a part of the file system answers the same, and does the same
to this part, whatever the files in the rest are. The rest stays as it is.
-/
namespace Masthead
namespace FileSystem

variable {fs fs' : FileSystem} {part rest : Set Location} {p : Path} {l : Location}

/-- Both hold the same nodes in `part`, and the same directories everywhere. -/
structure AgreeOn (part : Set Location) (fs fs' : FileSystem) : Prop where
  node : ∀ l ∈ part, fs'.nodeAt? l = fs.nodeAt? l
  directory : ∀ l, fs'.nodeAt? l = some .directory ↔ fs.nodeAt? l = some .directory
  workingDirectory : fs'.workingDirectory = fs.workingDirectory
  birthTimes : fs'.birthTimes = fs.birthTimes
  clock : fs'.clock = fs.clock
  faults : fs'.faults = fs.faults

namespace AgreeOn

theorem refl (part : Set Location) (fs : FileSystem) : AgreeOn part fs fs :=
  ⟨fun _ _ => rfl, fun _ => Iff.rfl, rfl, rfl, rfl, rfl⟩

theorem trans {fs'' : FileSystem} (h : AgreeOn part fs fs') (h' : AgreeOn part fs' fs'') :
    AgreeOn part fs fs'' where
  node l hl := (h'.node l hl).trans (h.node l hl)
  directory l := (h'.directory l).trans (h.directory l)
  workingDirectory := h'.workingDirectory.trans h.workingDirectory
  birthTimes := h'.birthTimes.trans h.birthTimes
  clock := h'.clock.trans h.clock
  faults := h'.faults.trans h.faults

theorem symm (h : AgreeOn part fs fs') : AgreeOn part fs' fs where
  node l hl := (h.node l hl).symm
  directory l := (h.directory l).symm
  workingDirectory := h.workingDirectory.symm
  birthTimes := h.birthTimes.symm
  clock := h.clock.symm
  faults := h.faults.symm

theorem mono (h : AgreeOn part fs fs') (hsub : rest ⊆ part) : AgreeOn rest fs fs' :=
  { h with node := fun l hl => h.node l (hsub hl) }

theorem fault?_eq (h : AgreeOn part fs fs') (onRename : Bool) (l : Location) :
    fs'.fault? onRename l = fs.fault? onRename l := by rw [fault?, fault?, h.faults]

theorem put (h : AgreeOn part fs fs') (hl : l ≠ []) (node : Node) :
    AgreeOn part (fs.put l node) (fs'.put l node) where
  node k hk := by rw [nodeAt?_put hl, nodeAt?_put hl, h.node k hk]
  directory k := by
    rw [nodeAt?_put hl, nodeAt?_put hl]
    split
    · rfl
    · exact h.directory k
  workingDirectory := h.workingDirectory
  birthTimes := h.birthTimes
  clock := h.clock
  faults := h.faults

theorem erase (h : AgreeOn part fs fs') (hl : l ≠ []) :
    AgreeOn part (fs.erase l) (fs'.erase l) where
  node k hk := by rw [nodeAt?_erase hl, nodeAt?_erase hl, h.node k hk]
  directory k := by
    rw [nodeAt?_erase hl, nodeAt?_erase hl]
    split
    · rfl
    · exact h.directory k
  workingDirectory := h.workingDirectory
  birthTimes := h.birthTimes
  clock := h.clock
  faults := h.faults

end AgreeOn

theorem agreeOn_put (hl : l ∉ part) (hdir : fs.nodeAt? l ≠ some .directory) (file : File) :
    AgreeOn part fs (fs.put l (.file file)) where
  node k hk := by
    rw [nodeAt?_put (ne_nil_of_nodeAt? hdir), if_neg]
    rintro rfl
    exact hl hk
  directory k := by
    rw [nodeAt?_put (ne_nil_of_nodeAt? hdir)]
    split
    · rename_i hk
      simp [hk, hdir]
    · rfl
  workingDirectory := rfl
  birthTimes := rfl
  clock := rfl
  faults := rfl

theorem agreeOn_erase (hl : l ∉ part) (hdir : fs.nodeAt? l ≠ some .directory) :
    AgreeOn part fs (fs.erase l) where
  node k hk := by
    rw [nodeAt?_erase (ne_nil_of_nodeAt? hdir), if_neg]
    rintro rfl
    exact hl hk
  directory k := by
    rw [nodeAt?_erase (ne_nil_of_nodeAt? hdir)]
    split
    · rename_i hk
      simp [hk, hdir]
    · rfl
  workingDirectory := rfl
  birthTimes := rfl
  clock := rfl
  faults := rfl

/-! ## Paths -/

def LeadsInto (fs : FileSystem) (part : Set Location) (p : Path) : Prop :=
  ∃ place, fs.locate p = .ok place ∧ place.location ∈ part ∧
    fs.nodeAt? place.location ≠ some .directory

/-- Where a path leads, or why it leads nowhere, depends on `part` only, and it leads nowhere
else. -/
structure Settled (fs : FileSystem) (part : Set Location) (p : Path) : Prop where
  locate_eq : ∀ {fs'}, AgreeOn part fs fs' → fs'.locate p = fs.locate p
  mem : ∀ {place}, fs.locate p = .ok place → place.location ∈ part

theorem LeadsInto.mono (h : fs.LeadsInto part p) (hsub : part ⊆ rest) : fs.LeadsInto rest p := by
  obtain ⟨place, hplace, hpart, hdir⟩ := h
  exact ⟨place, hplace, hsub hpart, hdir⟩

theorem settled_of_locate {place : Place} (h : fs.locate p = .ok place)
    (hpart : place.location ∈ part) : fs.Settled part p where
  locate_eq {fs'} hsame := by
    have hnode := hsame.node place.location hpart
    rw [locate_congr h hsame.workingDirectory (fun k => (hsame.directory k).mpr)
      (fun hsome => hnode ▸ hsome), h]
    conv_rhs => rw [locate_eq_placeAt h, ← location_of_locate h]
    rw [placeAt, placeAt, hnode]
  mem {other} hother := by
    obtain rfl : place = other := Except.ok.inj (h.symm.trans hother)
    exact hpart

theorem LeadsInto.settled (h : fs.LeadsInto part p) : fs.Settled part p := by
  obtain ⟨place, hplace, hpart, -⟩ := h
  exact settled_of_locate hplace hpart

theorem LeadsInto.congr (h : fs.LeadsInto part p) (hsame : AgreeOn part fs fs') :
    fs'.LeadsInto part p := by
  have hlocate := h.settled.locate_eq hsame
  obtain ⟨place, hplace, hpart, hdir⟩ := h
  exact ⟨place, hlocate.trans hplace, hpart, hsame.node _ hpart ▸ hdir⟩

theorem Settled.congr (h : fs.Settled part p) (hsame : AgreeOn part fs fs') :
    fs'.Settled part p where
  locate_eq hother := (h.locate_eq (hsame.trans hother)).trans (h.locate_eq hsame).symm
  mem hplace := h.mem ((h.locate_eq hsame).symm.trans hplace)

section Functions

variable (h : fs.Settled part p) (hsame : AgreeOn part fs fs')
include h hsame

theorem Settled.entry_eq : fs'.entry p = fs.entry p := by
  rw [entry, entry, h.locate_eq hsame]

theorem Settled.kind?_eq : fs'.kind? p = fs.kind? p := by rw [kind?, kind?, h.entry_eq hsame]

theorem Settled.birthTime?_eq : fs'.birthTime? p = fs.birthTime? p := by
  rw [birthTime?, birthTime?, h.entry_eq hsame, hsame.birthTimes]

theorem Settled.readText_eq : fs'.readText p = fs.readText p := by
  rw [readText, readText, h.entry_eq hsame]

theorem Settled.permissions?_eq : fs'.permissions? p = fs.permissions? p := by
  rw [permissions?, permissions?, h.entry_eq hsame]

theorem Settled.openForWriting_eq : fs'.openForWriting p = fs.openForWriting p := by
  rw [openForWriting, openForWriting, h.locate_eq hsame, hsame.clock]

theorem Settled.renameTarget_eq : fs'.renameTarget p = fs.renameTarget p := by
  rw [renameTarget, renameTarget, h.locate_eq hsame]

end Functions

theorem nodeAt?_of_locate {node : Node} (h : fs.locate p = .ok (.existing l node)) :
    fs.nodeAt? l = some node := by
  have hplace := locate_eq_placeAt h
  unfold placeAt at hplace
  split at hplace
  · rename_i node' hnode
    obtain ⟨rfl, rfl⟩ := Place.existing.inj hplace
    exact hnode
  · cases hplace

theorem nodeAt?_of_vacant (h : fs.locate p = .ok (.vacant l)) : fs.nodeAt? l = none := by
  have hplace := locate_eq_placeAt h
  unfold placeAt at hplace
  split at hplace
  · cases hplace
  · rename_i hnode
    obtain rfl := Place.vacant.inj hplace
    exact hnode

theorem locate_put {place : Place} (h : fs.locate p = .ok place)
    (hdir : fs.nodeAt? place.location ≠ some .directory) (file : File) :
    (fs.put place.location (.file file)).locate p =
      .ok (.existing place.location (.file file)) := by
  have hput : ∀ k, (fs.put place.location (.file file)).nodeAt? k =
      if k = place.location then some (.file file) else fs.nodeAt? k :=
    nodeAt?_put (ne_nil_of_nodeAt? hdir) _
  have hdirectory : ∀ k, fs.nodeAt? k = some .directory →
      (fs.put place.location (.file file)).nodeAt? k = some .directory := by
    intro k hk
    rw [hput, if_neg, hk]
    rintro rfl
    exact hdir hk
  have hnode : (fs.put place.location (.file file)).nodeAt? place.location =
      some (.file file) := by rw [hput, if_pos rfl]
  rw [← placeAt_of_some hnode]
  exact locate_congr h rfl hdirectory fun _ => by rw [hnode, Option.isSome_some]

theorem locate_of_entry {node : Node} (h : fs.entry p = .ok (l, node)) :
    fs.locate p = .ok (.existing l node) := by
  unfold entry at h
  cases hplace : fs.locate p with
  | error e => simp [hplace, bind, Except.bind] at h
  | ok place =>
    cases place with
    | vacant => simp [hplace, bind, Except.bind] at h
    | existing k other =>
      simp only [hplace, bind, Except.bind] at h
      split at h
      · cases h
      · cases h
        rfl

theorem nodeAt?_placeAt {place : Place} (h : fs.locate p = .ok place)
    (hdir : ∀ l, place ≠ .existing l .directory) : fs.nodeAt? place.location ≠ some .directory := by
  cases place with
  | vacant l => simp [Place.location, nodeAt?_of_vacant h]
  | existing l node =>
    rw [Place.location, nodeAt?_of_locate h]
    rintro ⟨⟩
    exact hdir l rfl

theorem location_of_openForWriting {file : File} (h : fs.openForWriting p = .ok (l, file)) :
    ∃ place, fs.locate p = .ok place ∧ place.location = l ∧
      ∀ k, place ≠ .existing k .directory := by
  unfold openForWriting at h
  cases hplace : fs.locate p with
  | error e => simp [hplace, bind, Except.bind] at h
  | ok place =>
    simp only [hplace, bind, Except.bind] at h
    refine ⟨place, rfl, ?_⟩
    split at h
    · cases h
    · split at h
      · cases h
      · split at h
        · cases h
        · cases h
          exact ⟨rfl, by simp⟩
      · cases h
        exact ⟨rfl, by simp⟩

theorem location_of_renameTarget (h : fs.renameTarget p = .ok l) :
    ∃ place, fs.locate p = .ok place ∧ place.location = l ∧
      ∀ k, place ≠ .existing k .directory := by
  unfold renameTarget at h
  cases hplace : fs.locate p with
  | error e => simp [hplace, bind, Except.bind] at h
  | ok place =>
    simp only [hplace, bind, Except.bind] at h
    refine ⟨place, rfl, ?_⟩
    split at h
    all_goals
      split at h
      · cases h
      · split at h
        · cases h
        · cases place with
          | vacant k => simpa [Place.location] using h
          | existing k node => cases node <;> simp_all [Place.location]

theorem Settled.of_openForWriting (h : fs.Settled part p) {file : File}
    (hopen : fs.openForWriting p = .ok (l, file)) :
    l ∈ part ∧ fs.nodeAt? l ≠ some .directory := by
  obtain ⟨place, hplace, rfl, hdir⟩ := location_of_openForWriting hopen
  exact ⟨h.mem hplace, nodeAt?_placeAt hplace hdir⟩

theorem Settled.of_renameTarget (h : fs.Settled part p) (htarget : fs.renameTarget p = .ok l) :
    l ∈ part ∧ fs.nodeAt? l ≠ some .directory := by
  obtain ⟨place, hplace, rfl, hdir⟩ := location_of_renameTarget htarget
  exact ⟨h.mem hplace, nodeAt?_placeAt hplace hdir⟩

theorem Settled.of_entry (h : fs.Settled part p) {node : Node} (hentry : fs.entry p = .ok (l, node)) :
    l ∈ part ∧ fs.nodeAt? l = some node :=
  ⟨h.mem (locate_of_entry hentry), nodeAt?_of_locate (locate_of_entry hentry)⟩

theorem LeadsInto.of_entry (h : fs.LeadsInto part p) {node : Node}
    (hentry : fs.entry p = .ok (l, node)) :
    l ∈ part ∧ fs.nodeAt? l = some node ∧ node ≠ .directory := by
  obtain ⟨hpart, hnode⟩ := h.settled.of_entry hentry
  obtain ⟨place, hplace, -, hdir⟩ := h
  obtain rfl : .existing l node = place := Except.ok.inj ((locate_of_entry hentry).symm.trans hplace)
  exact ⟨hpart, hnode, fun hnot => hdir (hnot ▸ hnode)⟩

theorem leadsInto_of_entry {file : File} (h : fs.entry p = .ok (l, .file file)) :
    fs.LeadsInto {l} p := by
  have hplace := locate_of_entry h
  exact ⟨_, hplace, rfl, by simp [Place.location, nodeAt?_of_locate hplace]⟩

theorem LeadsInto.put (h : fs.LeadsInto part p) (hl : fs.nodeAt? l ≠ some .directory)
    (file : File) : (fs.put l (.file file)).LeadsInto part p := by
  obtain ⟨place, hplace, hpart, hdir⟩ := h
  have hput : ∀ k, (fs.put l (.file file)).nodeAt? k =
      if k = l then some (.file file) else fs.nodeAt? k := nodeAt?_put (ne_nil_of_nodeAt? hl) _
  have hdirectory : ∀ k, fs.nodeAt? k = some .directory →
      (fs.put l (.file file)).nodeAt? k = some .directory := by
    intro k hk
    rw [hput, if_neg, hk]
    rintro rfl
    exact hl hk
  have hsome : (fs.nodeAt? place.location).isSome →
      ((fs.put l (.file file)).nodeAt? place.location).isSome := by
    rw [hput]
    split <;> simp
  refine ⟨_, locate_congr hplace rfl hdirectory hsome, by rwa [location_placeAt], ?_⟩
  rw [location_placeAt, hput]
  split
  · simp
  · exact hdir

/-! ## Operations -/

section Store

variable {opened : Content → Content} {t : Text}

theorem store_cases (fs : FileSystem) (p : Path) (opened : Content → Content) (t : Text) :
    (∃ e, fs.store p opened t = (.error e, fs)) ∨
      ∃ l file answer new, fs.openForWriting p = .ok (l, file) ∧
        fs.store p opened t = (answer, fs.put l (.file new)) := by
  rw [store]
  cases hopen : fs.openForWriting p with
  | error e => exact .inl ⟨e, rfl⟩
  | ok target =>
    obtain ⟨l, file⟩ := target
    refine .inr ⟨l, file, ?_⟩
    dsimp only
    cases (if t = [] then none else fs.fault? false l) with
    | none => exact ⟨_, _, rfl, rfl⟩
    | some e => exact ⟨_, _, rfl, rfl⟩

theorem Settled.leadsInto_of_store (h : fs.Settled part p)
    (hstore : (fs.store p opened t).2 ≠ fs ∨ (fs.store p opened t).1 = .ok ()) :
    (fs.store p opened t).2.LeadsInto part p := by
  obtain ⟨e, herror⟩ | ⟨l, file, answer, new, hopen, hput⟩ := store_cases fs p opened t
  · simp [herror] at hstore
  · obtain ⟨hl, hdir⟩ := h.of_openForWriting hopen
    obtain ⟨place, hplace, rfl, -⟩ := location_of_openForWriting hopen
    have hlocate := locate_put hplace hdir new
    rw [hput]
    refine ⟨_, hlocate, hl, ?_⟩
    rw [Place.location, nodeAt?_of_locate hlocate]
    simp

theorem Settled.after_store (h : fs.Settled part p) (opened : Content → Content) (t : Text) :
    (fs.store p opened t).2.Settled part p := by
  by_cases hsame : (fs.store p opened t).2 = fs
  · rwa [hsame]
  · exact (h.leadsInto_of_store (.inl hsame)).settled

theorem LeadsInto.after_store {q : Path} (h : fs.LeadsInto part q) (hp : fs.Settled part p)
    (opened : Content → Content) (t : Text) : (fs.store p opened t).2.LeadsInto part q := by
  obtain ⟨e, herror⟩ | ⟨l, file, answer, new, hopen, hput⟩ := store_cases fs p opened t
  · rwa [herror]
  · rw [hput]
    exact h.put (hp.of_openForWriting hopen).2 new

theorem Settled.store_congr (h : fs.Settled part p) (hsame : AgreeOn part fs fs') :
    (fs'.store p opened t).1 = (fs.store p opened t).1 ∧
      AgreeOn part (fs.store p opened t).2 (fs'.store p opened t).2 := by
  rw [store, store, h.openForWriting_eq hsame]
  cases hopen : fs.openForWriting p with
  | error e => exact ⟨rfl, hsame⟩
  | ok target =>
    obtain ⟨l, file⟩ := target
    have hl := ne_nil_of_nodeAt? (h.of_openForWriting hopen).2
    simp only [hsame.fault?_eq]
    cases (if t = [] then none else fs.fault? false l) with
    | none => exact ⟨rfl, hsame.put hl _⟩
    | some e => exact ⟨rfl, hsame.put hl _⟩

theorem Settled.store_frame (h : fs.Settled part p) (hrest : Disjoint part rest) :
    AgreeOn rest fs (fs.store p opened t).2 := by
  rw [store]
  cases hopen : fs.openForWriting p with
  | error e => exact .refl rest fs
  | ok target =>
    obtain ⟨l, file⟩ := target
    obtain ⟨hl, hdir⟩ := h.of_openForWriting hopen
    have hl := Set.disjoint_left.mp hrest hl
    dsimp only
    cases (if t = [] then none else fs.fault? false l) with
    | none => exact agreeOn_put hl hdir _
    | some e => exact agreeOn_put hl hdir _

end Store

section Permissions

variable {new : Permissions}

theorem setPermissions_cases (fs : FileSystem) (p : Path) (new : Permissions) :
    fs.setPermissions p new = fs ∨ ∃ l file, fs.entry p = .ok (l, .file file) ∧
      fs.setPermissions p new = fs.put l (.file { file with permissions := new }) := by
  unfold setPermissions
  split
  · rename_i l file hentry
    exact .inr ⟨l, file, hentry, rfl⟩
  · exact .inl rfl

theorem LeadsInto.after_setPermissions {q : Path} (h : fs.LeadsInto part q) (p : Path)
    (new : Permissions) : (fs.setPermissions p new).LeadsInto part q := by
  obtain hsame | ⟨l, file, hentry, hput⟩ := setPermissions_cases fs p new
  · rwa [hsame]
  · have hdir : fs.nodeAt? l ≠ some .directory := by
      simp [nodeAt?_of_locate (locate_of_entry hentry)]
    rw [hput]
    exact h.put hdir _

theorem Settled.setPermissions_congr (h : fs.Settled part p) (hsame : AgreeOn part fs fs') :
    AgreeOn part (fs.setPermissions p new) (fs'.setPermissions p new) := by
  rw [setPermissions, setPermissions, h.entry_eq hsame]
  split
  · rename_i l file hentry
    have hdir : fs.nodeAt? l ≠ some .directory := by simp [(h.of_entry hentry).2]
    exact hsame.put (ne_nil_of_nodeAt? hdir) _
  · exact hsame

theorem Settled.setPermissions_frame (h : fs.Settled part p) (hrest : Disjoint part rest) :
    AgreeOn rest fs (fs.setPermissions p new) := by
  obtain hsame | ⟨l, file, hentry, hput⟩ := setPermissions_cases fs p new
  · rw [hsame]
    exact .refl rest fs
  · obtain ⟨hl, hnode⟩ := h.of_entry hentry
    rw [hput]
    exact agreeOn_put (Set.disjoint_left.mp hrest hl) (by simp [hnode]) _

end Permissions

section Rename

variable {source target : Path}

theorem rename_of_error {e : IoError} (h : (fs.rename source target).1 = .error e) :
    (fs.rename source target).2 = fs := by
  unfold rename at h ⊢
  split
  · rfl
  · rename_i start node hentry
    rw [hentry] at h
    split
    · rfl
    · rename_i stop htarget
      simp only [htarget] at h
      split
      · rfl
      · rename_i hfault
        simp [hfault] at h

theorem LeadsInto.rename_congr (hs : fs.LeadsInto part source) (ht : fs.Settled part target)
    (hsame : AgreeOn part fs fs') :
    (fs'.rename source target).1 = (fs.rename source target).1 ∧
      AgreeOn part (fs.rename source target).2 (fs'.rename source target).2 := by
  rw [rename, rename, hs.settled.entry_eq hsame, ht.renameTarget_eq hsame]
  cases hentry : fs.entry source with
  | error e => exact ⟨rfl, hsame⟩
  | ok found =>
    obtain ⟨start, node⟩ := found
    cases htarget : fs.renameTarget target with
    | error e => exact ⟨rfl, hsame⟩
    | ok stop =>
      simp only [hsame.fault?_eq]
      cases fs.fault? true stop with
      | some e => exact ⟨rfl, hsame⟩
      | none =>
        refine ⟨rfl, ?_⟩
        obtain ⟨-, hnode, hfile⟩ := hs.of_entry hentry
        have hstart : fs.nodeAt? start ≠ some .directory := by
          rw [hnode]
          simpa using hfile
        have hstop := (ht.of_renameTarget htarget).2
        dsimp only
        split
        · exact hsame
        · exact (hsame.erase (ne_nil_of_nodeAt? hstart)).put (ne_nil_of_nodeAt? hstop) node

theorem LeadsInto.rename_frame (hs : fs.LeadsInto part source) (ht : fs.Settled part target)
    (hrest : Disjoint part rest) : AgreeOn rest fs (fs.rename source target).2 := by
  rw [rename]
  cases hentry : fs.entry source with
  | error e => exact .refl rest fs
  | ok found =>
    obtain ⟨start, node⟩ := found
    cases htarget : fs.renameTarget target with
    | error e => exact .refl rest fs
    | ok stop =>
      dsimp only
      cases fs.fault? true stop with
      | some e => exact .refl rest fs
      | none =>
        obtain ⟨hstart, hnode, hfile⟩ := hs.of_entry hentry
        obtain ⟨hstop, hdir⟩ := ht.of_renameTarget htarget
        have hsource : fs.nodeAt? start ≠ some .directory := by
          rw [hnode]
          simpa using hfile
        obtain ⟨file, rfl⟩ : ∃ file, node = .file file := by
          cases node with
          | file file => exact ⟨file, rfl⟩
          | directory => exact absurd rfl hfile
        dsimp only
        split
        · exact .refl rest fs
        · have herased := agreeOn_erase (Set.disjoint_left.mp hrest hstart) hsource
          refine herased.trans (agreeOn_put (Set.disjoint_left.mp hrest hstop) ?_ file)
          rw [ne_eq, herased.directory]
          exact hdir

end Rename

theorem Settled.removeFile_congr (h : fs.Settled part p) (hsame : AgreeOn part fs fs') :
    AgreeOn part (fs.removeFile p) (fs'.removeFile p) := by
  rw [removeFile, removeFile, h.entry_eq hsame]
  split
  · rename_i l file hentry
    have hdir : fs.nodeAt? l ≠ some .directory := by simp [(h.of_entry hentry).2]
    exact hsame.erase (ne_nil_of_nodeAt? hdir)
  · exact hsame

theorem Settled.removeFile_frame (h : fs.Settled part p) (hrest : Disjoint part rest) :
    AgreeOn rest fs (fs.removeFile p) := by
  rw [removeFile]
  split
  · rename_i l file hentry
    obtain ⟨hl, hnode⟩ := h.of_entry hentry
    exact agreeOn_erase (Set.disjoint_left.mp hrest hl) (by simp [hnode])
  · exact .refl rest fs

end FileSystem

namespace FileOperation
open FileSystem

variable {fs fs' : FileSystem} {part rest : Set Location} {op : FileOperation} {p : Path}

/-- The operation answers the same and does the same to a part of the file system whatever the files
in the rest are, and it leaves the rest alone. -/
structure Local (part : Set Location) (fs : FileSystem) (op : FileOperation) : Prop where
  congr : ∀ {fs'}, AgreeOn part fs fs' →
    (op.apply fs').1 = (op.apply fs).1 ∧ AgreeOn part (op.apply fs).2 (op.apply fs').2
  frame : ∀ {fs'}, AgreeOn part fs fs' → ∀ {rest}, Disjoint part rest →
    AgreeOn rest fs' (op.apply fs').2

theorem local_of_answer (hread : ∀ fs, (op.apply fs).2 = fs)
    (hanswer : ∀ {fs'}, AgreeOn part fs fs' → (op.apply fs').1 = (op.apply fs).1) :
    op.Local part fs where
  congr hsame := by
    rw [hread, hread]
    exact ⟨hanswer hsame, hsame⟩
  frame hsame _ _ := by
    rw [hread]
    exact .refl _ _

theorem local_birthTime (h : fs.Settled part p) : (birthTime p).Local part fs :=
  local_of_answer (fun _ => rfl) fun hsame => h.birthTime?_eq hsame

theorem local_read (h : fs.Settled part p) : (read p).Local part fs :=
  local_of_answer (fun _ => rfl) fun hsame => h.readText_eq hsame

theorem local_write (h : fs.Settled part p) (t : Text) : (write p t).Local part fs where
  congr hsame := h.store_congr hsame
  frame hsame _ hrest := (h.congr hsame).store_frame hrest

theorem local_permissions (h : fs.Settled part p) : (permissions p).Local part fs :=
  local_of_answer (fun _ => rfl) fun hsame => h.permissions?_eq hsame

theorem local_setPermissions (h : fs.Settled part p) (new : Permissions) :
    (setPermissions p new).Local part fs where
  congr hsame := ⟨rfl, h.setPermissions_congr hsame⟩
  frame hsame _ hrest := (h.congr hsame).setPermissions_frame hrest

theorem local_remove (h : fs.Settled part p) : (remove p).Local part fs where
  congr hsame := ⟨rfl, h.removeFile_congr hsame⟩
  frame hsame _ hrest := (h.congr hsame).removeFile_frame hrest

theorem local_rename {source target : Path} (hs : fs.LeadsInto part source)
    (ht : fs.Settled part target) : (rename source target).Local part fs where
  congr hsame := hs.rename_congr ht hsame
  frame hsame _ hrest := (hs.congr hsame).rename_frame (ht.congr hsame) hrest

end FileOperation
end Masthead
