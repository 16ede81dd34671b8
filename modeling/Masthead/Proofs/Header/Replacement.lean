import Mathlib.Data.Set.Insert
import Masthead.Header.Document
import Masthead.Proofs.Encoding
import Masthead.Proofs.FileSystem.Sibling
import Masthead.Proofs.Task.Interleaving

/-!
# Files that are replaced

A file is replaced by way of a copy beside it. Where the copy can be written and renamed, the file
has its new content in the end and nothing else has changed. Whether it can or not, only these two
locations are touched.
-/
namespace Masthead
open FileSystem

namespace Header

def copyName (name : Name) : Name :=
  Text.encode (".".toList ++ Text.decode name ++ ".lhm-tmp".toList)

theorem length_decode_copyName (name : Name) :
    (Text.decode (copyName name)).length = (Text.decode name).length + 9 := by
  rw [copyName, Text.decode_encode, List.length_append, List.length_append]
  have hdot : ".".toList.length = 1 := rfl
  have hend : ".lhm-tmp".toList.length = 8 := rfl
  omega

theorem isName_copyName {name : Name} (h : Path.slash ∉ name) : Path.IsName (copyName name) where
  ne_nil hname := by
    have := length_decode_copyName name
    rw [hname] at this
    simp [Text.decode, Text.decodeFrom] at this
  slashless hmem := by
    have hslash : '/' ∈ ".".toList ++ Text.decode name ++ ".lhm-tmp".toList :=
      Text.mem_of_mem_encode hmem (by decide)
    simp only [List.mem_append] at hslash
    rcases hslash with (hslash | hslash) | hslash
    · exact absurd hslash (by decide)
    · exact h (Text.mem_of_mem_decode hslash (by decide))
    · exact absurd hslash (by decide)
  ne_here hname := by
    have := length_decode_copyName name
    rw [hname, show (Text.decode Name.dot).length = 1 from rfl] at this
    omega
  ne_up hname := by
    have := length_decode_copyName name
    rw [hname, show (Text.decode Name.dots).length = 2 from rfl] at this
    omega

theorem copyName_eq_iff {m n : Name} : copyName m = copyName n ↔ Text.decode m = Text.decode n := by
  rw [copyName, copyName, Text.encode_injective.eq_iff, List.append_cancel_right_eq,
    List.append_cancel_left_eq]

theorem temporaryPath_eq (p : Path) :
    temporaryPath p = p.withFileName (copyName (p.fileName?.getD [])) := rfl

theorem isName_copy (p : Path) : Path.IsName (copyName (p.fileName?.getD [])) := by
  apply isName_copyName
  cases hn : p.fileName? with
  | none => simp
  | some n =>
    obtain ⟨-, -, hpiece, -⟩ := Path.exists_names_of_fileName? hn
    exact (Path.of_mem_pieces hpiece).2

theorem endsWithSlash_temporaryPath (p : Path) : (temporaryPath p).endsWithSlash = false := by
  have hcopy : Path.endsWithSlash (copyName (p.fileName?.getD [])) = false := by
    rw [Path.endsWithSlash, copyName, Text.encode_append, List.getLast?_append]
    rfl
  rw [temporaryPath_eq, Path.withFileName]
  split <;> rw [Path.endsWithSlash_join (isName_copy p).ne_nil, hcopy]

/-- A file that holds a text, beside which a copy can be written and then renamed over it. -/
structure Replaceable (fs : FileSystem) (p : Path) : Prop where
  text : ∃ t, fs.readText p = .ok t
  vacant : fs.kind? (temporaryPath p) = none
  writable : ∀ t, (fs.writeText (temporaryPath p) t).1 = .ok ()
  renamable : fs.fault? true (p.target fs.workingDirectory) = none

def replacement (fs : FileSystem) (file : File) (content : Text) : File :=
  { file with content := .text content, born := fs.clock }

/-- Where a file that can be replaced is, and where its copy is put. -/
structure Sites (fs : FileSystem) (p : Path) (directory : Location) (name : Name) (file : File) :
    Prop where
  file : fs.entry p = .ok (directory ++ [name], .file file)
  named : p.pieces.getLast? = some name ∧ name ≠ Name.dot ∧ name ≠ Name.dots
  copy : fs.locate (temporaryPath p) = .ok (.vacant (directory ++ [copyName name]))
  copy_slash : (temporaryPath p).endsWithSlash = false
  writable : fs.fault? false (directory ++ [copyName name]) = none
  renamable : fs.fault? true (directory ++ [name]) = none

variable {fs : FileSystem} {p : Path} {directory : Location} {name : Name} {file : File}
  {t content : Text}

theorem entry_of_readText (h : fs.readText p = .ok t) :
    ∃ l file, fs.entry p = .ok (l, .file file) ∧ file.content = .text t := by
  unfold readText at h
  cases hentry : fs.entry p with
  | error e => simp [hentry, bind, Except.bind] at h
  | ok found =>
    obtain ⟨l, node⟩ := found
    simp only [hentry, bind, Except.bind] at h
    cases node with
    | directory => cases h
    | file file =>
      refine ⟨l, file, rfl, ?_⟩
      cases hcontent : file.content with
      | text t => simpa [hcontent, Content.decoded] using h
      | bytes bs => simp [hcontent, Content.decoded] at h

theorem readText_of_entry {l : Location} (h : fs.entry p = .ok (l, .file file)) :
    fs.readText p = file.content.decoded := by
  simp [readText, h, bind, Except.bind]

theorem endsWithSlash_of_entry {l : Location} (h : fs.entry p = .ok (l, .file file)) :
    p.endsWithSlash = false := by
  have hlocate := locate_of_entry h
  unfold entry at h
  simp only [hlocate, bind, Except.bind] at h
  split at h
  · cases h
  · rename_i hslash
    simpa [Node.kind] using hslash

theorem vacant_of_writeText (hvacant : fs.kind? p = none)
    (hwrite : ∀ t, (fs.writeText p t).1 = .ok ()) :
    ∃ l, fs.locate p = .ok (.vacant l) ∧ p.endsWithSlash = false ∧ fs.fault? false l = none := by
  have hx := hwrite "x".toList
  unfold writeText store at hx
  cases hopen : fs.openForWriting p with
  | error e => simp [hopen] at hx
  | ok target =>
    obtain ⟨l, c⟩ := target
    have hfault : fs.fault? false l = none := by
      cases hfault : fs.fault? false l with
      | none => rfl
      | some e => simp [hopen, hfault] at hx
    obtain ⟨place, hplace, hl, -⟩ := location_of_openForWriting hopen
    have hslash : p.endsWithSlash = false := by
      cases hslash : p.endsWithSlash with
      | false => rfl
      | true => simp [openForWriting, hplace, hslash, bind, Except.bind] at hopen
    refine ⟨l, ?_, hslash, hfault⟩
    cases place with
    | vacant k =>
      obtain rfl : k = l := hl
      exact hplace
    | existing k node =>
      have hentry : fs.entry p = .ok (k, node) := by
        simp [entry, hplace, hslash, bind, Except.bind]
      simp [kind?, hentry] at hvacant

/-- Where nothing goes wrong, a file can be replaced if the place of its copy is free. -/
theorem replaceable_of_vacant {l : Location} (hfaults : fs.faults = []) (htext : fs.readText p = .ok t)
    (hcopy : fs.locate (temporaryPath p) = .ok (.vacant l))
    (hslash : (temporaryPath p).endsWithSlash = false) : Replaceable fs p where
  text := ⟨t, htext⟩
  vacant := by simp [kind?, entry, hcopy, bind, Except.bind]
  writable := by
    simp [FileSystem.writeText, store, openForWriting, hcopy, hslash, fault?, hfaults, bind,
      Except.bind]
  renamable := by simp [fault?, hfaults]

theorem location_copy {l : Location} {place : Place} (h : fs.entry p = .ok (l, .file file))
    (hplace : fs.locate (temporaryPath p) = .ok place) :
    ∃ directory name, p.fileName? = some name ∧ l = directory ++ [name] ∧
      place.location = directory ++ [copyName name] := by
  obtain ⟨directory, name, hn, hl, hk⟩ := location_withFileName h (isName_copy p) hplace
  rw [hn, Option.getD_some] at hk
  exact ⟨directory, name, hn, hl, hk⟩

theorem Replaceable.exists_sites (h : Replaceable fs p) :
    ∃ directory name file, Sites fs p directory name file := by
  obtain ⟨t, ht⟩ := h.text
  obtain ⟨l, file, hentry, -⟩ := entry_of_readText ht
  obtain ⟨k, hcopy, hslash, hfault⟩ := vacant_of_writeText h.vacant h.writable
  obtain ⟨directory, name, hname, rfl, hk⟩ := location_copy hentry hcopy
  obtain rfl : k = directory ++ [copyName name] := hk
  obtain ⟨init, hpieces, hnamed⟩ := exists_pieces_of_entry hentry hname
  have htarget : directory ++ [name] = p.target fs.workingDirectory :=
    location_of_locate (locate_of_entry hentry)
  exact ⟨directory, name, file,
    { file := hentry
      named := ⟨by rw [hpieces, List.getLast?_concat], hnamed⟩
      copy := hcopy
      copy_slash := hslash
      writable := hfault
      renamable := by rw [htarget, h.renamable] }⟩

def writtenBack (fs : FileSystem) (p : Path) (new : Revision) : Except IoError Unit × FileSystem :=
  if new.action.isChange then (replaceFile p new.content).run fs else (.ok (), fs)

theorem run_load (rule : Rule) : (Document.load ⟨p, .onDisk, rule⟩).run fs =
    ((fs.readText p).mapError (.io p), fs) := rfl

theorem run_reviseFile (htext : fs.readText p = .ok t) (rule : Rule) :
    (Document.reviseFile ⟨p, .onDisk, rule⟩).run fs =
      match rule.revise t with
      | .error cause => (.error (.comment cause), fs)
      | .ok new =>
        ((writtenBack fs p new).1.map (fun _ => new) |>.mapError (.io p), (writtenBack fs p new).2) := by
  unfold Document.reviseFile
  rw [Task.run_bind, run_load, htext]
  dsimp only [Document.reviseText, Except.mapError]
  cases rule.revise t with
  | error cause => rfl
  | ok new =>
    dsimp only
    rw [Task.run_bind]
    unfold Document.store writtenBack
    by_cases hchange : new.action.isChange
    · dsimp only
      rw [if_pos hchange, if_pos hchange, Task.run_bind]
      cases ((replaceFile p new.content).run fs).1 <;> rfl
    · dsimp only
      rw [if_neg hchange, if_neg hchange]
      rfl

theorem copy_ne (directory : Location) (name : Name) :
    directory ++ [copyName name] ≠ directory ++ [name] := by
  intro heq
  have := length_decode_copyName name
  rw [List.singleton_inj.mp (List.append_cancel_left heq)] at this
  omega

theorem run_copyPermissions {l k : Location} {copy : File} (h : fs.entry p = .ok (l, .file file))
    (hcopy : fs.entry (temporaryPath p) = .ok (k, .file copy)) : (copyPermissions p).run fs =
      ((), fs.put k (.file { copy with permissions := file.permissions })) := by
  have hpermissions : fs.permissions? p = some file.permissions := by rw [permissions?, h]
  rw [copyPermissions, Task.run_bind, Task.run_permissions, hpermissions]
  dsimp only
  rw [Task.run_setPermissions, setPermissions, hcopy]

namespace Sites

variable (h : Sites fs p directory name file)
include h

theorem nodeAt?_copy : fs.nodeAt? (directory ++ [copyName name]) = none :=
  nodeAt?_of_vacant h.copy

theorem nodeAt?_file : fs.nodeAt? (directory ++ [name]) = some (.file file) :=
  nodeAt?_of_locate (locate_of_entry h.file)

theorem leadsInto_file : fs.LeadsInto {directory ++ [name]} p := leadsInto_of_entry h.file

theorem writeText (content : Text) : fs.writeText (temporaryPath p) content =
    (.ok (), fs.put (directory ++ [copyName name])
      (.file { content := .text content, born := fs.clock })) := by
  have hopen : fs.openForWriting (temporaryPath p) =
      .ok (directory ++ [copyName name], { content := .text [], born := fs.clock }) := by
    simp [openForWriting, h.copy, h.copy_slash, bind, Except.bind]
  simp [FileSystem.writeText, store, hopen, h.writable, Content.append]

section Written

variable {written : FileSystem} {copy : File}
  (hwritten : written = fs.put (directory ++ [copyName name]) (.file copy))
include hwritten

theorem agreeOn_written : AgreeOn {directory ++ [name]} fs written :=
  hwritten ▸ agreeOn_put (Set.mem_singleton_iff.not.mpr (copy_ne directory name))
    (by simp [h.nodeAt?_copy]) _

theorem entry_copy_written : written.entry (temporaryPath p) =
    .ok (directory ++ [copyName name], .file copy) := by
  have hlocate : written.locate (temporaryPath p) =
      .ok (.existing (directory ++ [copyName name]) (.file copy)) := by
    rw [hwritten]
    exact locate_put h.copy (by simp [Place.location, h.nodeAt?_copy]) _
  simp [entry, hlocate, h.copy_slash, bind, Except.bind]

theorem rename_written : written.rename (temporaryPath p) p =
    (.ok (), fs.put (directory ++ [name]) (.file copy)) := by
  have hsame := h.agreeOn_written hwritten
  have htarget : written.renameTarget p = .ok (directory ++ [name]) := by
    obtain ⟨hlast, hdot, hdots⟩ := h.named
    rw [h.leadsInto_file.settled.renameTarget_eq hsame, renameTarget, locate_of_entry h.file, hlast]
    simp only [bind, Except.bind, endsWithSlash_of_entry h.file, ne_eq, hdot, hdots,
      not_false_eq_true, decide_true]
    rfl
  have hfault : written.fault? true (directory ++ [name]) = none := by
    rw [hsame.fault?_eq, h.renamable]
  have herase : written.erase (directory ++ [copyName name]) = fs := by
    rw [hwritten, erase_put_of_vacant (by simp) h.nodeAt?_copy]
  simp only [FileSystem.rename, h.entry_copy_written hwritten, htarget, hfault]
  rw [if_neg (copy_ne directory name), herase]

end Written

theorem run_replaceFile (content : Text) : (replaceFile p content).run fs =
    (.ok (), fs.put (directory ++ [name]) (.file (replacement fs file content))) := by
  have hsame : AgreeOn {directory ++ [name]} fs (fs.put (directory ++ [copyName name])
      (.file { content := .text content, born := fs.clock })) := h.agreeOn_written rfl
  have hfile := (h.leadsInto_file.settled.entry_eq hsame).trans h.file
  rw [replaceFile, Task.run_bind, Task.run_write, h.writeText]
  dsimp only
  rw [Task.run_bind, run_copyPermissions hfile (h.entry_copy_written rfl), put_put]
  dsimp only
  rw [Task.run_bind, Task.run_rename, h.rename_written rfl]
  rfl

theorem entry_put (new : File) :
    (fs.put (directory ++ [name]) (.file new)).entry p = .ok (directory ++ [name], .file new) := by
  have hlocate := locate_put (locate_of_entry h.file)
    (by simp [Place.location, h.nodeAt?_file]) new
  rw [Place.location] at hlocate
  simp [entry, hlocate, endsWithSlash_of_entry h.file, bind, Except.bind]

theorem writtenBack_eq (new : Revision) : writtenBack fs p new =
    (.ok (), if new.action.isChange then
      fs.put (directory ++ [name]) (.file (replacement fs file new.content)) else fs) := by
  unfold writtenBack
  split
  · exact h.run_replaceFile new.content
  · rfl

end Sites

/-! ## What is touched -/

/-- The location that a path names, and the one of the copy if a file is there. -/
def reach (fs : FileSystem) (p : Path) : Set Location :=
  {l | l = p.target fs.workingDirectory ∨
    fs.kind? p = some .file ∧ l = (temporaryPath p).target fs.workingDirectory}

theorem target_mem_reach (fs : FileSystem) (p : Path) : p.target fs.workingDirectory ∈ reach fs p :=
  .inl rfl

theorem local_kind (fs : FileSystem) (p : Path) : (FileOperation.kind p).Local (reach fs p) fs :=
  FileOperation.local_of_answer (fun _ => rfl) fun hsame =>
    kind?_congr (hsame.mono (Set.singleton_subset_iff.mpr (target_mem_reach fs p)))

theorem confined_copyPermissions {part : Set Location} (hcopy : fs.LeadsInto part (temporaryPath p))
    (hfile : fs.LeadsInto part p) : (copyPermissions p).Confined part fs ∧
      ((copyPermissions p).run fs).2.LeadsInto part (temporaryPath p) ∧
      ((copyPermissions p).run fs).2.LeadsInto part p := by
  rw [copyPermissions, Task.confined_bind, Task.confined_permissions, Task.run_bind,
    Task.run_permissions]
  cases fs.permissions? p with
  | none => exact ⟨⟨FileOperation.local_permissions hfile.settled, trivial⟩, hcopy, hfile⟩
  | some new =>
    dsimp only
    rw [Task.confined_setPermissions, Task.run_setPermissions]
    exact ⟨⟨FileOperation.local_permissions hfile.settled,
      FileOperation.local_setPermissions hcopy.settled new⟩, hcopy.after_setPermissions _ new,
      hfile.after_setPermissions _ new⟩

section Reach

variable {l : Location} (h : fs.entry p = .ok (l, .file file))
include h

theorem copy_mem_reach : (temporaryPath p).target fs.workingDirectory ∈ reach fs p :=
  .inr ⟨by simp [kind?, h, Node.kind], rfl⟩

theorem leadsInto_reach : fs.LeadsInto (reach fs p) p := by
  have hl : l = p.target fs.workingDirectory := location_of_locate (locate_of_entry h)
  exact (leadsInto_of_entry h).mono (Set.singleton_subset_iff.mpr (hl ▸ target_mem_reach fs p))

theorem settled_copy : fs.Settled (reach fs p) (temporaryPath p) := by
  have hl : l = p.target fs.workingDirectory := location_of_locate (locate_of_entry h)
  exact settled_withFileName h (isName_copy p) (hl ▸ target_mem_reach fs p) (copy_mem_reach h)

theorem confined_replaceFile (content : Text) : (replaceFile p content).Confined (reach fs p) fs := by
  have hcopy := settled_copy h
  rw [replaceFile, Task.confined_bind, Task.confined_write, Task.run_write]
  refine ⟨FileOperation.local_write hcopy content, ?_⟩
  have hwritten : (fs.writeText (temporaryPath p) content).2.Settled (reach fs p) (temporaryPath p) :=
    hcopy.after_store _ _
  cases hanswer : (fs.writeText (temporaryPath p) content).1 with
  | error e => exact ⟨FileOperation.local_remove hwritten, trivial⟩
  | ok =>
    have hcopied : (fs.writeText (temporaryPath p) content).2.LeadsInto (reach fs p)
        (temporaryPath p) := hcopy.leadsInto_of_store (.inr hanswer)
    have hfile : (fs.writeText (temporaryPath p) content).2.LeadsInto (reach fs p) p :=
      (leadsInto_reach h).after_store hcopy _ _
    obtain ⟨hpermissions, hcopied, hfile⟩ := confined_copyPermissions hcopied hfile
    dsimp only
    rw [Task.confined_bind]
    refine ⟨hpermissions, ?_⟩
    generalize ((copyPermissions p).run (fs.writeText (temporaryPath p) content).2).2 = marked at *
    rw [Task.confined_bind, Task.confined_rename, Task.run_rename]
    refine ⟨FileOperation.local_rename hcopied hfile.settled, ?_⟩
    cases hrenamed : (marked.rename (temporaryPath p) p).1 with
    | ok => trivial
    | error e =>
      rw [rename_of_error hrenamed]
      exact ⟨FileOperation.local_remove hcopied.settled, trivial⟩

theorem confined_reviseFile (rule : Rule) :
    (Document.reviseFile ⟨p, .onDisk, rule⟩).Confined (reach fs p) fs := by
  unfold Document.reviseFile
  rw [Task.confined_bind, run_load]
  refine ⟨⟨FileOperation.local_read (leadsInto_reach h).settled, trivial⟩, ?_⟩
  cases (fs.readText p).mapError (DocumentError.io p) with
  | error e => trivial
  | ok t =>
    dsimp only
    cases Document.reviseText ⟨p, .onDisk, rule⟩ t with
    | error e => trivial
    | ok new =>
      dsimp only
      rw [Task.confined_bind]
      unfold Document.store
      by_cases hchange : new.action.isChange
      · dsimp only
        rw [if_pos hchange, Task.confined_bind, Task.run_bind]
        refine ⟨⟨confined_replaceFile h _, trivial⟩, ?_⟩
        cases ((replaceFile p new.content).run fs).1 <;> trivial
      · dsimp only
        rw [if_neg hchange]
        exact ⟨trivial, trivial⟩

end Reach

theorem Sites.reach_eq (h : Sites fs p directory name file) :
    reach fs p = {directory ++ [name], directory ++ [copyName name]} := by
  have hkind : fs.kind? p = some .file := by simp [kind?, h.file, Node.kind]
  have hfile : directory ++ [name] = p.target fs.workingDirectory :=
    location_of_locate (locate_of_entry h.file)
  have hcopy : directory ++ [copyName name] = (temporaryPath p).target fs.workingDirectory :=
    location_of_locate h.copy
  ext l
  simp [reach, hkind, ← hfile, ← hcopy]

/-- Paths of different locations, none of which is the copy of a file among them, and files that have
each a copy of its own. -/
structure Separate (fs : FileSystem) (paths : List Path) : Prop where
  different : (paths.map fun p => p.target fs.workingDirectory).Nodup
  notCopy : ∀ p ∈ paths, fs.kind? p = some .file → ∀ q ∈ paths,
    q.target fs.workingDirectory ≠ (temporaryPath p).target fs.workingDirectory
  ownCopy : paths.Pairwise fun p q => fs.kind? p = some .file → fs.kind? q = some .file →
    (temporaryPath p).target fs.workingDirectory ≠ (temporaryPath q).target fs.workingDirectory

theorem exists_file_of_kind? (h : fs.kind? p = some .file) :
    ∃ l file, fs.entry p = .ok (l, .file file) := by
  unfold kind? at h
  split at h
  · rename_i l node hentry
    cases node with
    | file c => exact ⟨l, c, hentry⟩
    | directory => simp [Node.kind] at h
  · cases h

theorem exists_target (p : Path) (wd : Location) :
    (∃ directory name, p.fileName? = some name ∧ name ≠ [] ∧ p.target wd = directory ++ [name] ∧
      (temporaryPath p).target wd = directory ++ [copyName name]) ∨
    (temporaryPath p).target wd = p.target wd ++ [copyName []] := by
  have hcopy := isName_copy p
  cases hn : p.fileName? with
  | some n =>
    obtain ⟨hp, htemporary⟩ := Path.target_withFileName hn hcopy wd
    obtain ⟨-, -, hpiece, -⟩ := Path.exists_names_of_fileName? hn
    refine .inl ⟨_, n, rfl, (Path.of_mem_pieces hpiece).1, hp, ?_⟩
    rw [temporaryPath_eq, htemporary, hn, Option.getD_some]
  | none =>
    right
    have hrelative := Path.isAbsolute_of_slashless hcopy.slashless
    rw [hn, Option.getD_none] at hcopy hrelative
    have hjoin : temporaryPath p = p.join (copyName []) := by
      rw [temporaryPath_eq, Path.withFileName, hn, Option.getD_none]
    rw [hjoin, Path.target_eq_walk, Path.target_eq_walk, Path.isAbsolute_join hrelative,
      Path.pieces_join hrelative, hcopy.pieces, Path.walk_append, hcopy.walk]

theorem target_copy_ne (p : Path) (wd : Location) : (temporaryPath p).target wd ≠ p.target wd := by
  obtain ⟨directory, name, -, -, hp, hcopy⟩ | hcopy := exists_target p wd
  · rw [hp, hcopy]
    exact copy_ne directory name
  · rw [hcopy]
    simp

/-- The name that a path ends in, if it ends in one, is a text. -/
def EndsInText (p : Path) : Prop := ∀ n ∈ p.fileName?, (Text.decode? n).isSome

theorem eq_of_copyName_eq {m n : Name} (hm : (Text.decode? m).isSome) (hn : (Text.decode? n).isSome)
    (h : copyName m = copyName n) : m = n := by
  obtain ⟨s, hs⟩ := Option.isSome_iff_exists.mp hm
  obtain ⟨t, ht⟩ := Option.isSome_iff_exists.mp hn
  obtain rfl := Text.decode?_eq_some_iff.mp hs
  obtain rfl := Text.decode?_eq_some_iff.mp ht
  rw [copyName_eq_iff, Text.decode_encode, Text.decode_encode] at h
  rw [h]

theorem target_inj_of_copy {q : Path} {wd : Location} (hp : EndsInText p) (hq : EndsInText q)
    (hsame : (temporaryPath p).target wd = (temporaryPath q).target wd) :
    p.target wd = q.target wd := by
  have hempty : (Text.decode? []).isSome := by decide
  obtain ⟨d, n, hn, hne, htarget, hcopy⟩ | hcopy := exists_target p wd <;>
    obtain ⟨d', n', hn', hne', htarget', hcopy'⟩ | hcopy' := exists_target q wd <;>
      rw [hcopy, hcopy'] at hsame <;> obtain ⟨hd, hname⟩ := List.append_inj' hsame rfl <;>
        replace hname := List.singleton_inj.mp hname
  · rw [htarget, htarget', hd, eq_of_copyName_eq (hp n hn) (hq n' hn') hname]
  · exact absurd (eq_of_copyName_eq (hp n hn) hempty hname) hne
  · exact absurd (eq_of_copyName_eq hempty (hq n' hn') hname).symm hne'
  · exact hd

theorem Separate.pairwise_reach {paths : List Path} (h : Separate fs paths) :
    paths.Pairwise fun p q => Disjoint (reach fs p) (reach fs q) := by
  refine ((List.pairwise_map.mp h.different).and h.ownCopy).imp_of_mem
    fun {p q} hp hq ⟨hne, hown⟩ => ?_
  rw [Set.disjoint_left]
  rintro l (rfl | ⟨hfile, rfl⟩) (heq | ⟨hfile', heq⟩)
  · exact hne heq
  · exact h.notCopy q hq hfile' p hp heq
  · exact h.notCopy p hp hfile q hq heq.symm
  · exact hown hfile hfile' heq

theorem separate_singleton (fs : FileSystem) (p : Path) : Separate fs [p] where
  different := List.pairwise_singleton _ _
  notCopy q hq _ r hr := by
    obtain rfl := List.mem_singleton.mp hq
    obtain rfl := List.mem_singleton.mp hr
    exact (target_copy_ne _ _).symm
  ownCopy := List.pairwise_singleton _ _

section Replaceable

variable {paths : List Path} (h : ∀ p ∈ paths, Replaceable fs p) (hne : (paths.map fs.entry).Nodup)
include h hne

theorem nodup_target_of_replaceable : (paths.map fun p => p.target fs.workingDirectory).Nodup := by
  refine List.pairwise_map.mpr ((List.pairwise_map.mp hne).imp_of_mem fun {p q} hp hq hentry => ?_)
  intro htarget
  obtain ⟨directory, name, file, hp⟩ := (h p hp).exists_sites
  obtain ⟨directory', name', file', hq⟩ := (h q hq).exists_sites
  have hfile : directory ++ [name] = directory' ++ [name'] :=
    (location_of_locate (locate_of_entry hp.file)).trans
      (htarget.trans (location_of_locate (locate_of_entry hq.file)).symm)
  have hnode := hp.nodeAt?_file
  rw [hfile, hq.nodeAt?_file] at hnode
  rw [hp.file, hq.file, hfile, Option.some.inj hnode] at hentry
  exact hentry rfl

theorem separate_of_replaceable
    (hown : (paths.map fun p => (temporaryPath p).target fs.workingDirectory).Nodup) :
    Separate fs paths where
  different := nodup_target_of_replaceable h hne
  notCopy p hp _ q hq hcopy := by
    obtain ⟨directory, name, file, hp⟩ := (h p hp).exists_sites
    obtain ⟨directory', name', file', hq⟩ := (h q hq).exists_sites
    have hlocation : directory' ++ [name'] = directory ++ [copyName name] :=
      (location_of_locate (locate_of_entry hq.file)).trans
        (hcopy.trans (location_of_locate hp.copy).symm)
    have hnode := hq.nodeAt?_file
    rw [hlocation, hp.nodeAt?_copy] at hnode
    cases hnode
  ownCopy := (List.pairwise_map.mp hown).imp fun hne _ _ => hne

end Replaceable

end Header
end Masthead
