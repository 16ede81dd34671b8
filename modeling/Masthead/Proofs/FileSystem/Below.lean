import Mathlib.Data.List.Nodup
import Masthead.Proofs.FileSystem.Frame

namespace Masthead.FileSystem

variable {fs : FileSystem} {l location : Location} {node : Node} {names : List Name} {name : Name}
  {p : Path}

/-- No location is listed twice, and what leads to one are names. -/
structure Consistent (fs : FileSystem) : Prop where
  once : (fs.entries.map (·.1)).Nodup
  named : ∀ entry ∈ fs.entries, ∀ name ∈ entry.1, Path.IsName name

instance : Decidable (Path.IsName name) :=
  decidable_of_iff (name ≠ [] ∧ Path.slash ∉ name ∧ name ≠ Name.dot ∧ name ≠ Name.dots)
    ⟨fun ⟨hne, hslash, hhere, hup⟩ => ⟨hne, hslash, hhere, hup⟩,
      fun h => ⟨h.ne_nil, h.slashless, h.ne_here, h.ne_up⟩⟩

instance (fs : FileSystem) : Decidable fs.Consistent :=
  decidable_of_iff ((fs.entries.map (·.1)).Nodup ∧
    ∀ entry ∈ fs.entries, ∀ name ∈ entry.1, Path.IsName name)
    ⟨fun ⟨honce, hnamed⟩ => ⟨honce, hnamed⟩, fun h => ⟨h.once, h.named⟩⟩

theorem lookup_eq_some_iff {entries : List (Location × Node)} (h : (entries.map (·.1)).Nodup) :
    entries.lookup l = some node ↔ (l, node) ∈ entries := by
  induction entries with
  | nil => simp
  | cons entry entries ih =>
    obtain ⟨k, other⟩ := entry
    obtain ⟨hk, hrest⟩ := List.nodup_cons.mp h
    rw [lookup_cons_eq_if, List.mem_cons, ← ih hrest]
    by_cases hl : l = k
    · subst hl
      have hnone : (l, node) ∉ entries := fun hmem => hk (List.mem_map_of_mem (f := (·.1)) hmem)
      rw [← ih hrest] at hnone
      simp [hnone, eq_comm]
    · simp [hl]

theorem Consistent.nodeAt?_eq_some_iff (h : fs.Consistent) (hl : l ≠ []) :
    fs.nodeAt? l = some node ↔ (l, node) ∈ fs.entries := by
  rw [nodeAt?, if_neg hl, lookup_eq_some_iff h.once]

/-- The names that lead from a location to a regular file behind it. -/
def namesBelow? (location : Location) (entry : Location × Node) : Option (List Name) :=
  match location.isPrefixOf? entry.1, entry.2 with
  | some names, .file _ => if names = [] then none else some names
  | _, _ => none

theorem namesBelow?_eq_some_iff {entry : Location × Node} :
    namesBelow? location entry = some names ↔
      entry.1 = location ++ names ∧ names ≠ [] ∧ ∃ file, entry.2 = .file file := by
  obtain ⟨below, node⟩ := entry
  unfold namesBelow?
  constructor
  · intro h
    split at h
    · rename_i behind file hprefix hnode
      split at h
      · cases h
      · rename_i hne
        obtain rfl := Option.some.inj h
        exact ⟨(List.isPrefixOf?_eq_some_iff_append_eq.mp hprefix).symm, hne, file, hnode⟩
    · cases h
  · rintro ⟨hbelow, hne, file, hnode⟩
    dsimp only at hbelow hnode ⊢
    rw [hbelow, hnode, List.isPrefixOf?_eq_some_iff_append_eq.mpr rfl]
    exact if_neg hne

theorem filesBelow_of_entry (h : fs.entry p = .ok (location, .directory)) :
    fs.filesBelow p = fs.entries.filterMap (namesBelow? location) := by
  rw [filesBelow, h]
  rfl

theorem exists_entry_of_filesBelow (h : fs.filesBelow p ≠ []) :
    ∃ location, fs.entry p = .ok (location, .directory) := by
  unfold filesBelow at h
  split at h
  · exact ⟨_, ‹_›⟩
  · exact absurd rfl h

/-- The names lead from the directory to a regular file. -/
def LeadsToFile (fs : FileSystem) (directory : Path) (names : List Name) : Prop :=
  ∃ location file, fs.entry directory = .ok (location, .directory) ∧
    fs.nodeAt? (location ++ names) = some (.file file)

theorem Consistent.mem_filesBelow_iff (h : fs.Consistent) :
    names ∈ fs.filesBelow p ↔ names ≠ [] ∧ fs.LeadsToFile p names := by
  constructor
  · intro hmem
    obtain ⟨location, hentry⟩ := exists_entry_of_filesBelow (List.ne_nil_of_mem hmem)
    rw [filesBelow_of_entry hentry] at hmem
    obtain ⟨⟨below, node⟩, hlisted, hnames⟩ := List.mem_filterMap.mp hmem
    obtain ⟨rfl, hne, file, rfl⟩ := namesBelow?_eq_some_iff.mp hnames
    exact ⟨hne, location, file, hentry,
      (h.nodeAt?_eq_some_iff (by simp [hne])).mpr hlisted⟩
  · rintro ⟨hne, location, file, hentry, hfile⟩
    rw [filesBelow_of_entry hentry]
    exact List.mem_filterMap.mpr ⟨_, (h.nodeAt?_eq_some_iff (by simp [hne])).mp hfile,
      namesBelow?_eq_some_iff.mpr ⟨rfl, hne, file, rfl⟩⟩

theorem Consistent.nodup_filesBelow (h : fs.Consistent) (p : Path) : (fs.filesBelow p).Nodup := by
  by_cases hnone : fs.filesBelow p = []
  · rw [hnone]
    exact List.nodup_nil
  · obtain ⟨location, hentry⟩ := exists_entry_of_filesBelow hnone
    rw [filesBelow_of_entry hentry, List.Nodup, List.pairwise_filterMap]
    refine (List.pairwise_map.mp h.once).imp fun {entry other} hne names hnames names' hnames' => ?_
    rintro rfl
    exact hne ((namesBelow?_eq_some_iff.mp hnames).1.trans
      (namesBelow?_eq_some_iff.mp hnames').1.symm)

theorem Consistent.isName_of_leadsToFile (h : fs.Consistent) (hne : names ≠ [])
    (hfile : fs.LeadsToFile p names) : ∀ name ∈ names, Path.IsName name := by
  obtain ⟨location, file, -, hnode⟩ := hfile
  have hlisted := (h.nodeAt?_eq_some_iff (by simp [hne])).mp hnode
  exact fun name hname => h.named _ hlisted name (List.mem_append_right location hname)

theorem ne_nil_of_leadsToFile (h : fs.LeadsToFile p names) : p ≠ [] := by
  obtain ⟨location, file, hentry, -⟩ := h
  exact (locate_eq_ok_iff.mp (locate_of_entry hentry)).1.2.1

end Masthead.FileSystem
