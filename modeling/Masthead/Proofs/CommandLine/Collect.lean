import Masthead.Proofs.CommandLine.Account
import Masthead.Proofs.FileSystem.Below
import Masthead.Proofs.Path.Below

/-!
# The files that are collected

The paths of a command line stand for files: a path that is no directory for itself, and a directory
for the files below it that are in a language of the editor, apart from definition files and from
hidden files and the files of hidden directories. The files are collected in ascending order, and of
paths with the same components the first is taken.
-/
namespace Masthead.CommandLine
open Editor Text

variable {e : Editor} {fs : FileSystem} {p q : Path} {paths : List Path} {names : List Name}
  {name : Name}

/-- A name of a file or directory that is not hidden: no text, or one that does not start with a dot. -/
def Shown (name : Name) : Prop := ∀ t, decode? name = some t → t.head? ≠ some '.'

/-- The editor has a language for files of this name, which is a text, and they are no definition
files. -/
def Suits (e : Editor) (name : Name) : Prop :=
  ∃ t, decode? name = some t ∧ ¬ Header.definitionExtension <:+ lower t ∧ (e.languageFor? t).isSome

/-- A regular file below a directory, behind directories that are not hidden. It is no definition
file, and the editor has a language for it. -/
structure Covers (e : Editor) (fs : FileSystem) (directory : Path) (folders : List Name)
    (name : Name) : Prop where
  file : fs.LeadsToFile directory (folders ++ [name])
  shown : ∀ folder ∈ folders, Shown folder
  suits : Suits e name

/-- A path of the command line stands for a file. -/
inductive StandsFor (e : Editor) (fs : FileSystem) (p : Path) : Path → Prop
  | itself (noDirectory : fs.kind? p ≠ some .directory) : StandsFor e fs p p
  | below {folders : List Name} {name : Name} (covered : Covers e fs p folders name)
      (shown : Shown name) : StandsFor e fs p ((folders ++ [name]).foldl Path.join p)

/-- The files that a path stands for, as they are found. -/
def standing (e : Editor) (fs : FileSystem) (p : Path) : List Path :=
  if fs.kind? p = some .directory then candidates e p (fs.filesBelow p) else [p]

/-! ## One path -/

theorem run_filesAt (e : Editor) (fs : FileSystem) (p : Path) :
    (filesAt e p).run fs = (standing e fs p, fs) := by
  have hkind : (Task.isDirectory p).run fs = (fs.kind? p == some .directory, fs) := rfl
  unfold filesAt standing
  rw [Task.run_bind, hkind]
  by_cases hdir : fs.kind? p = some .directory
  · rw [if_pos hdir, hdir]
    rfl
  · have hno : (fs.kind? p == some .directory) = false := by simpa using hdir
    rw [if_neg hdir, hno]
    rfl

theorem isHidden_eq_false_iff : isHidden names = false ↔ ∀ name ∈ names, Shown name := by
  simp only [isHidden, List.any_eq_false, Shown, Name.isHidden]
  refine forall₂_congr fun name _ => ?_
  cases decode? name <;> simp

theorem isCandidate_iff (h : p.fileName? = some name) : isCandidate e p = true ↔ Suits e name := by
  unfold isCandidate Header.isDefinitionFile Suits
  rw [h, Option.bind_some]
  cases decode? name with
  | none => simp
  | some t => simp [← List.isSuffixOf_iff_suffix]

theorem mem_candidates_iff {below : List (List Name)} : q ∈ candidates e p below ↔
    ∃ names ∈ below, (∀ name ∈ names, Shown name) ∧ names.foldl Path.join p = q ∧
      isCandidate e q = true := by
  simp only [candidates, List.mem_filter, List.mem_map, Bool.not_eq_true', isHidden_eq_false_iff]
  constructor
  · rintro ⟨⟨names, ⟨hbelow, hshown⟩, hq⟩, hcandidate⟩
    exact ⟨names, hbelow, hshown, hq, hcandidate⟩
  · rintro ⟨names, hbelow, hshown, hq, hcandidate⟩
    exact ⟨⟨names, ⟨hbelow, hshown⟩, hq⟩, hcandidate⟩

theorem kind?_of_leadsToFile (h : fs.LeadsToFile p names) : fs.kind? p = some .directory := by
  obtain ⟨location, content, hentry, -⟩ := h
  rw [FileSystem.kind?, hentry]
  rfl

theorem mem_standing_iff (h : fs.Consistent) : q ∈ standing e fs p ↔ StandsFor e fs p q := by
  have hname : ∀ {folders name}, fs.LeadsToFile p (folders ++ [name]) →
      ((folders ++ [name]).foldl Path.join p).fileName? = some name := fun hfile =>
    Path.fileName?_foldl_join (h.isName_of_leadsToFile (by simp) hfile)
      (FileSystem.ne_nil_of_leadsToFile hfile)
  unfold standing
  constructor
  · intro hq
    split at hq
    · obtain ⟨names, hbelow, hshown, rfl, hcandidate⟩ := mem_candidates_iff.mp hq
      obtain ⟨hne, hfile⟩ := h.mem_filesBelow_iff.mp hbelow
      obtain ⟨folders, name, rfl⟩ := (List.eq_nil_or_concat' names).resolve_left hne
      have hsuits := (isCandidate_iff (hname hfile)).mp hcandidate
      exact .below ⟨hfile, fun folder hf => hshown folder (List.mem_append_left _ hf), hsuits⟩
        (hshown name (by simp))
    · rename_i hdir
      rw [List.mem_singleton.mp hq]
      exact .itself hdir
  · rintro (hdir | @⟨folders, name, covered, hshown⟩)
    · rw [if_neg hdir]
      exact List.mem_singleton_self p
    · rw [if_pos (kind?_of_leadsToFile covered.file)]
      refine mem_candidates_iff.mpr ⟨_, h.mem_filesBelow_iff.mpr ⟨by simp, covered.file⟩, ?_, rfl,
        (isCandidate_iff (hname covered.file)).mpr covered.suits⟩
      exact List.forall_mem_append.mpr ⟨covered.shown, by simpa using hshown⟩

theorem nodup_standing (h : fs.Consistent) (e : Editor) (p : Path) :
    ((standing e fs p).map Path.components).Nodup := by
  unfold standing
  split
  · have hfiles : (((fs.filesBelow p).map fun names => names.foldl Path.join p).map
        Path.components).Nodup := by
      rw [List.map_map]
      refine List.Nodup.map_on (fun names hnames names' hnames' heq => ?_) (h.nodup_filesBelow p)
      obtain ⟨hne, hfile⟩ := h.mem_filesBelow_iff.mp hnames
      obtain ⟨hne', hfile'⟩ := h.mem_filesBelow_iff.mp hnames'
      exact Path.foldl_join_inj (h.isName_of_leadsToFile hne hfile)
        (h.isName_of_leadsToFile hne' hfile') (FileSystem.ne_nil_of_leadsToFile hfile) heq
    exact hfiles.sublist ((List.filter_sublist.trans (List.filter_sublist.map _)).map _)
  · exact List.nodup_singleton _

/-! ## All paths -/

theorem run_collectInto (e : Editor) (fs : FileSystem) (found paths : List Path) :
    (collectInto e found paths).run fs = ((paths.flatMap (standing e fs)).foldl
      (fun found file => Path.insertOrdered file found) found, fs) := by
  induction paths generalizing found with
  | nil => rfl
  | cons p paths ih =>
    rw [collectInto, Task.run_bind, run_filesAt, ih, List.flatMap_cons, List.foldl_append]

/-- A file is found first where no earlier path stands for one with the same components. -/
theorem first_flatMap_standing (h : fs.Consistent) :
    Path.First (paths.flatMap (standing e fs)) q ↔ ∃ before p after, paths = before ++ p :: after ∧
      StandsFor e fs p q ∧
      ∀ earlier ∈ before, ∀ file, StandsFor e fs earlier file → file.components ≠ q.components := by
  induction paths with
  | nil => simp [Path.not_first_nil]
  | cons p paths ih =>
    rw [List.flatMap_cons, Path.first_append, Path.first_iff_mem (nodup_standing h e p),
      mem_standing_iff h, ih]
    simp only [mem_standing_iff h]
    constructor
    · rintro (hq | ⟨⟨before, p', after, rfl, hq, hbefore⟩, hp⟩)
      · exact ⟨[], p, paths, rfl, hq, by simp⟩
      · exact ⟨p :: before, p', after, rfl, hq, List.forall_mem_cons.mpr ⟨hp, hbefore⟩⟩
    · rintro ⟨before, p', after, heq, hq, hbefore⟩
      cases before with
      | nil =>
        obtain ⟨rfl, rfl⟩ := List.cons.inj heq
        exact .inl hq
      | cons r before =>
        obtain ⟨rfl, rfl⟩ := List.cons.inj heq
        obtain ⟨hp, hbefore⟩ := List.forall_mem_cons.mp hbefore
        exact .inr ⟨⟨before, p', after, rfl, hq, hbefore⟩, hp⟩

/-- The collected files are in strictly ascending order, and a file is collected exactly if a path of
the command line stands for it and no earlier path stands for one with the same components. So
whatever a path stands for is collected, in the spelling in which it was found first. Collecting
changes nothing in the file system. -/
theorem exists_collected (h : fs.Consistent) (e : Editor) (paths : List Path) :
    ∃ files, (collect e paths).run fs = (files, fs) ∧ Path.Ascending files ∧
      (∀ q, q ∈ files ↔ ∃ before p after, paths = before ++ p :: after ∧ StandsFor e fs p q ∧
        ∀ earlier ∈ before, ∀ file, StandsFor e fs earlier file →
          file.components ≠ q.components) ∧
      ∀ p ∈ paths, ∀ q, StandsFor e fs p q → ∃ file ∈ files, file.components = q.components := by
  have hrun := run_collectInto e fs [] paths
  have hascending := (yields_collectInto e List.Pairwise.nil paths).run fs
  have hmem : ∀ q, q ∈ ((collectInto e [] paths).run fs).1 ↔
      Path.First (paths.flatMap (standing e fs)) q := by
    intro q
    rw [hrun, Path.mem_foldl_insertOrdered List.Pairwise.nil]
    simp
  refine ⟨_, hrun, ?_, fun q => ?_, fun p hp q hq => ?_⟩
  · rwa [hrun] at hascending
  · rw [← first_flatMap_standing h, ← hmem, hrun]
  · have hfound : q ∈ paths.flatMap (standing e fs) :=
      List.mem_flatMap.mpr ⟨p, hp, (mem_standing_iff h).mpr hq⟩
    obtain ⟨file, hfirst, hsame⟩ := Path.exists_first hfound
    have hfile := (hmem file).mpr hfirst
    rw [hrun] at hfile
    exact ⟨file, hfile, hsame⟩

/-- A directory that holds a file, a hidden file, and a hidden directory with a file. -/
def hiddenEntries : FileSystem where
  entries := [([encode "d".toList], .directory),
    ([encode "d".toList, encode "a.go".toList], .file { content := .text [] }),
    ([encode "d".toList, encode ".b.go".toList], .file { content := .text [] }),
    ([encode "d".toList, encode ".git".toList], .directory),
    ([encode "d".toList, encode ".git".toList, encode "c.go".toList], .file { content := .text [] })]
  workingDirectory := []

/-- The directory, spelled with a slash behind it and without one. -/
def slashPath : Path := Path.ofText "d/".toList

def folderPath : Path := Path.ofText "d".toList

def hiddenName : Name := encode ".b.go".toList

theorem entry_hiddenEntries : hiddenEntries.entry slashPath = .ok ([folderPath], .directory) := by rfl

theorem covers_shown : Covers goPlan.editor hiddenEntries slashPath [] goPath where
  file := ⟨[folderPath], { content := .text [] }, entry_hiddenEntries, rfl⟩
  shown := by simp
  suits := ⟨"a.go".toList, decode?_encode _, by decide +kernel⟩

theorem covers_hidden : Covers goPlan.editor hiddenEntries slashPath [] hiddenName where
  file := ⟨[folderPath], { content := .text [] }, entry_hiddenEntries, rfl⟩
  shown := by simp
  suits := ⟨".b.go".toList, decode?_encode _, by decide +kernel⟩

theorem shown_goPath : Shown goPath := by
  intro t ht
  obtain rfl : "a.go".toList = t := Option.some.inj ((decode?_encode _).symm.trans ht)
  decide

/-- A path that leads nowhere is collected, and so is the file of the directory that is named twice. -/
theorem exists_collected_hiddenEntries :
    hiddenEntries.Consistent ∧ ∃ files,
      (collect goPlan.editor [gonePath, slashPath, folderPath]).run hiddenEntries =
        (files, hiddenEntries) ∧ Path.Ascending files ∧ gonePath ∈ files ∧
      ∃ file ∈ files, file.components = (Path.ofText "d/a.go".toList).components := by
  have hconsistent : hiddenEntries.Consistent := by decide +kernel
  obtain ⟨files, hrun, hascending, hexact, hcomplete⟩ :=
    exists_collected hconsistent goPlan.editor [gonePath, slashPath, folderPath]
  refine ⟨hconsistent, files, hrun, hascending, ?_, ?_⟩
  · exact (hexact _).mpr ⟨[], _, _, rfl, .itself (by decide +kernel), by simp⟩
  · exact hcomplete slashPath (by simp) _ (.below covers_shown shown_goPath)

/-- A file whose own name starts with a dot is left out, though no hidden directory leads to it. -/
theorem not_collected_hidden : ¬ ∀ (e : Editor) (fs : FileSystem) (paths : List Path)
    (p : Path) (folders : List Name) (name : Name), fs.Consistent → p ∈ paths →
    Covers e fs p folders name → ∃ file ∈ ((collect e paths).run fs).1,
      file.components = ((folders ++ [name]).foldl Path.join p).components := by
  intro h
  have hcollected : ((collect goPlan.editor [slashPath]).run hiddenEntries).1 =
      [Path.ofText "d/a.go".toList] := by decide +kernel
  obtain ⟨file, hfile, hsame⟩ := h goPlan.editor hiddenEntries [slashPath] _ _ _
    (by decide +kernel) (by simp) covers_hidden
  rw [hcollected, List.mem_singleton] at hfile
  rw [hfile] at hsame
  exact absurd hsame (by decide +kernel)

end Masthead.CommandLine
