import Masthead.Header.Definitions
import Masthead.Proofs.Language.Extension

/-!
# Headers by extension

Definitions map extensions to headers: what was inserted last for an extension is what it has. Of
the extensions that end a file name each is an end of every longer one, so there is one that is
longer than all others, and a file gets its header. The order in which different extensions are
inserted does not matter.
-/
namespace Masthead.Header.Definitions
open Text

variable {d : Definitions} {entries : List (Text × List Text)} {inserts : List (Text × List Text)}
  {key name : Text} {lines : List Text}

/-- The extensions that have a header. -/
def keys (d : Definitions) : List Text := d.entries.map (·.1)

/-- No extension is listed twice. -/
def Distinct (d : Definitions) : Prop := d.keys.Nodup

/-- The definitions made by insertions, one after another. -/
def ofInserts (inserts : List (Text × List Text)) : Definitions :=
  inserts.foldl (fun d i => d.insert i.1 i.2) empty

/-- The last insertion for the normalized extension `key` is the one of `lines`. -/
def LastInsert (inserts : List (Text × List Text)) (key : Text) (lines : List Text) : Prop :=
  ∃ before extension after, inserts = before ++ (extension, lines) :: after ∧
    normalizeExtension extension = key ∧ ∀ i ∈ after, normalizeExtension i.1 ≠ key

/-! ## Insertion -/

theorem mem_map_putEntry {k : Text} :
    k ∈ (putEntry key lines entries).map (·.1) ↔ k = key ∨ k ∈ entries.map (·.1) := by
  induction entries with
  | nil => simp [putEntry]
  | cons entry entries ih =>
    rw [putEntry]
    split
    · rename_i heq
      simp [heq]
    · rw [List.map_cons, List.mem_cons, ih, List.map_cons, List.mem_cons, or_left_comm]

theorem nodup_putEntry (h : (entries.map (·.1)).Nodup) :
    ((putEntry key lines entries).map (·.1)).Nodup := by
  induction entries with
  | nil => simp [putEntry]
  | cons entry entries ih =>
    rw [List.map_cons, List.nodup_cons] at h
    rw [putEntry]
    split
    · rename_i heq
      rw [List.map_cons, List.nodup_cons]
      exact ⟨heq ▸ h.1, h.2⟩
    · rename_i hne
      rw [List.map_cons, List.nodup_cons, mem_map_putEntry, not_or]
      exact ⟨⟨hne, h.1⟩, ih h.2⟩

theorem mem_putEntry (h : (entries.map (·.1)).Nodup) {k : Text} {ls : List Text} :
    (k, ls) ∈ putEntry key lines entries ↔ if k = key then ls = lines else (k, ls) ∈ entries := by
  induction entries with
  | nil => by_cases hk : k = key <;> simp [putEntry, hk]
  | cons entry entries ih =>
    obtain ⟨k', ls'⟩ := entry
    rw [List.map_cons, List.nodup_cons] at h
    have hother : ∀ ls, (k', ls) ∉ entries := fun ls hmem =>
      h.1 (List.mem_map_of_mem (f := (·.1)) hmem)
    rw [putEntry]
    by_cases hk' : k' = key
    · subst hk'
      by_cases hk : k = k'
      · subst hk
        simp [hother]
      · simp [hk]
    · rw [if_neg hk', List.mem_cons, ih h.2]
      by_cases hk : k = key
      · subst hk
        simp [Ne.symm hk']
      · simp [hk]

theorem Distinct.insert (h : d.Distinct) (extension : Text) (lines : List Text) :
    (d.insert extension lines).Distinct := by
  unfold Definitions.insert
  dsimp only
  split
  · exact h
  · exact nodup_putEntry h

theorem distinct_ofInserts (inserts : List (Text × List Text)) : (ofInserts inserts).Distinct := by
  induction inserts using List.reverseRecOn with
  | nil => exact List.nodup_nil
  | append_singleton inserts i ih =>
    rw [ofInserts, List.foldl_append]
    exact ih.insert i.1 i.2

theorem mem_entries_insert (h : d.Distinct) {extension : Text} {ls : List Text} :
    (key, ls) ∈ (d.insert extension lines).entries ↔
      if normalizeExtension extension = key ∧ key ≠ [] then ls = lines
      else (key, ls) ∈ d.entries := by
  unfold Definitions.insert
  dsimp only
  by_cases hnil : normalizeExtension extension = []
  · rw [if_pos hnil, if_neg]
    rintro ⟨rfl, hne⟩
    exact hne hnil
  · rw [if_neg hnil, mem_putEntry h]
    by_cases hkey : key = normalizeExtension extension
    · rw [if_pos hkey, if_pos ⟨hkey.symm, hkey ▸ hnil⟩]
    · rw [if_neg hkey, if_neg fun h => hkey h.1.symm]

theorem lastInsert_concat {extension : Text} {ls : List Text} :
    LastInsert (inserts ++ [(extension, lines)]) key ls ↔
      if normalizeExtension extension = key then ls = lines else LastInsert inserts key ls := by
  constructor
  · rintro ⟨before, x, after, heq, hkey, hafter⟩
    rcases List.eq_nil_or_concat' after with rfl | ⟨after, i, rfl⟩
    · obtain ⟨-, hlast⟩ := List.append_inj' heq rfl
      obtain ⟨rfl, rfl⟩ : extension = x ∧ lines = ls := by simpa using hlast
      rw [if_pos hkey]
    · rw [← List.cons_append, ← List.append_assoc] at heq
      obtain ⟨hinit, hlast⟩ := List.append_inj' heq rfl
      obtain rfl : (extension, lines) = i := by simpa using hlast
      rw [if_neg (hafter (extension, lines) (by simp))]
      exact ⟨before, x, after, hinit, hkey, fun i hi => hafter i (List.mem_append_left _ hi)⟩
  · split
    · rename_i hkey
      rintro rfl
      exact ⟨inserts, extension, [], rfl, hkey, by simp⟩
    · rename_i hkey
      rintro ⟨before, x, after, rfl, hx, hafter⟩
      refine ⟨before, x, after ++ [(extension, lines)], by simp, hx, fun i hi => ?_⟩
      rcases List.mem_append.mp hi with hi | hi
      · exact hafter i hi
      · rw [List.mem_singleton.mp hi]
        exact hkey

theorem mem_entries_ofInserts :
    (key, lines) ∈ (ofInserts inserts).entries ↔ key ≠ [] ∧ LastInsert inserts key lines := by
  induction inserts using List.reverseRecOn with
  | nil => simp [ofInserts, empty, LastInsert]
  | append_singleton inserts i ih =>
    obtain ⟨extension, ls⟩ := i
    rw [ofInserts, List.foldl_append]
    refine (mem_entries_insert (distinct_ofInserts inserts)).trans ?_
    rw [ih, lastInsert_concat]
    by_cases hkey : normalizeExtension extension = key <;> by_cases hne : key = [] <;>
      simp [hkey, hne]

theorem exists_lastInsert_iff :
    (∃ lines, LastInsert inserts key lines) ↔ ∃ i ∈ inserts, normalizeExtension i.1 = key := by
  induction inserts using List.reverseRecOn with
  | nil => simp [LastInsert]
  | append_singleton inserts i ih =>
    obtain ⟨extension, ls⟩ := i
    by_cases hkey : normalizeExtension extension = key
    · exact iff_of_true ⟨ls, lastInsert_concat.mpr (by rw [if_pos hkey])⟩
        ⟨(extension, ls), by simp, hkey⟩
    · have hconcat : ∀ lines, LastInsert (inserts ++ [(extension, ls)]) key lines ↔
          LastInsert inserts key lines := fun lines => by rw [lastInsert_concat, if_neg hkey]
      simp only [hconcat, ih, List.mem_append, List.mem_singleton, or_and_right, exists_or,
        exists_eq_left, hkey, or_false]

/-- The extensions that have a header are the ones that were inserted, blank ones apart. -/
theorem mem_keys_ofInserts :
    key ∈ (ofInserts inserts).keys ↔ key ≠ [] ∧ ∃ i ∈ inserts, normalizeExtension i.1 = key := by
  rw [← exists_lastInsert_iff]
  constructor
  · rintro hmem
    obtain ⟨⟨k, lines⟩, hentry, rfl⟩ := List.mem_map.mp hmem
    obtain ⟨hne, hlast⟩ := mem_entries_ofInserts.mp hentry
    exact ⟨hne, lines, hlast⟩
  · rintro ⟨hne, lines, hlast⟩
    exact List.mem_map_of_mem (f := (·.1)) (mem_entries_ofInserts.mpr ⟨hne, hlast⟩)

/-! ## Lookup -/

theorem foldl_longer (entries : List (Text × List Text)) (found : Text × List Text) :
    ∃ best ∈ found :: entries, entries.foldl longer (some found) = some best ∧
      ∀ entry ∈ found :: entries, entry.1.length ≤ best.1.length := by
  induction entries generalizing found with
  | nil => exact ⟨found, by simp, rfl, by simp⟩
  | cons entry entries ih =>
    obtain ⟨next, hstep, hmem, hfound, hentry⟩ : ∃ next, longer (some found) entry = some next ∧
        (next = found ∨ next = entry) ∧ found.1.length ≤ next.1.length ∧
        entry.1.length ≤ next.1.length := by
      unfold longer
      dsimp only
      split
      · rename_i hle
        exact ⟨entry, rfl, .inr rfl, hle, le_rfl⟩
      · rename_i hgt
        exact ⟨found, rfl, .inl rfl, le_rfl, by omega⟩
    obtain ⟨best, hbest, heq, hall⟩ := ih next
    refine ⟨best, ?_, by rw [List.foldl_cons, hstep, heq], ?_⟩
    · rcases List.mem_cons.mp hbest with rfl | hbest
      · rcases hmem with rfl | rfl <;> simp
      · simp [hbest]
    · have hnext := hall next (by simp)
      intro other hother
      rcases List.mem_cons.mp hother with rfl | hother
      · omega
      · rcases List.mem_cons.mp hother with rfl | hother
        · omega
        · exact hall other (by simp [hother])

theorem mem_matching {entry : Text × List Text} :
    entry ∈ (d.entries.filter fun (key, _) => key.isSuffixOf (lower name)) ↔
      entry ∈ d.entries ∧ entry.1 <:+ lower name := by
  rw [List.mem_filter, List.isSuffixOf_iff_suffix]

theorem lookup?_eq_none_iff :
    d.lookup? name = none ↔ ∀ k ∈ d.keys, ¬ k <:+ lower name := by
  have hkeys : (∀ k ∈ d.keys, ¬ k <:+ lower name) ↔
      (d.entries.filter fun (key, _) => key.isSuffixOf (lower name)) = [] := by
    rw [List.eq_nil_iff_forall_not_mem]
    simp only [mem_matching, not_and]
    exact List.forall_mem_map
  rw [hkeys, lookup?]
  dsimp only
  cases (d.entries.filter fun (key, _) => key.isSuffixOf (lower name)) with
  | nil => simp
  | cons entry entries =>
    obtain ⟨best, -, heq, -⟩ := foldl_longer entries entry
    refine iff_of_false ?_ (by simp)
    rw [List.foldl_cons, show longer none entry = some entry from rfl, heq]
    simp

/-- Every other extension that ends the name is an end of the one that is found. -/
theorem of_lookup?_eq_some (h : d.lookup? name = some (key, lines)) :
    (key, lines) ∈ d.entries ∧ key <:+ lower name ∧ ∀ k ∈ d.keys, k <:+ lower name → k <:+ key := by
  unfold lookup? at h
  dsimp only at h
  generalize hmatching :
    (d.entries.filter fun (key, _) => key.isSuffixOf (lower name)) = matching at h
  cases matching with
  | nil => simp at h
  | cons entry entries =>
    obtain ⟨best, hmem, heq, hall⟩ := foldl_longer entries entry
    obtain rfl : best = (key, lines) := by
      rw [List.foldl_cons, show longer none entry = some entry from rfl, heq] at h
      exact Option.some.inj h
    rw [← hmatching] at hmem hall
    obtain ⟨hentry, hsuffix⟩ := mem_matching.mp hmem
    refine ⟨hentry, hsuffix, fun k hk hends => ?_⟩
    obtain ⟨other, hother, rfl⟩ := List.mem_map.mp hk
    exact List.suffix_of_suffix_length_le hends hsuffix
      (hall other (mem_matching.mpr ⟨hother, hends⟩))

theorem Distinct.eq_of_mem (h : d.Distinct) {ls : List Text} (hmem : (key, lines) ∈ d.entries)
    (hmem' : (key, ls) ∈ d.entries) : lines = ls :=
  congrArg Prod.snd (List.inj_on_of_nodup_map h hmem hmem' rfl)

theorem lookup?_eq_some_iff (h : d.Distinct) :
    d.lookup? name = some (key, lines) ↔ (key, lines) ∈ d.entries ∧ key <:+ lower name ∧
      ∀ k ∈ d.keys, k <:+ lower name → k <:+ key := by
  refine ⟨of_lookup?_eq_some, fun ⟨hmem, hends, hall⟩ => ?_⟩
  have hkey : key ∈ d.keys := List.mem_map_of_mem (f := (·.1)) hmem
  cases hfound : d.lookup? name with
  | none => exact absurd hends (lookup?_eq_none_iff.mp hfound key hkey)
  | some found =>
    obtain ⟨k, ls⟩ := found
    obtain ⟨hmem', hends', hall'⟩ := of_lookup?_eq_some hfound
    have hk : k ∈ d.keys := List.mem_map_of_mem (f := (·.1)) hmem'
    obtain rfl : key = k :=
      (hall' key hkey hends).eq_of_length_le (hall k hk hends').length_le
    rw [h.eq_of_mem hmem hmem']

theorem lookup?_congr {d' : Definitions} (h : d.Distinct) (h' : d'.Distinct)
    (hsame : ∀ entry, entry ∈ d.entries ↔ entry ∈ d'.entries) :
    d.lookup? name = d'.lookup? name := by
  have hkeys : ∀ k, k ∈ d.keys ↔ k ∈ d'.keys := by
    intro k
    simp only [keys, List.mem_map, hsame]
  apply Option.ext
  rintro ⟨key, lines⟩
  rw [lookup?_eq_some_iff h, lookup?_eq_some_iff h', hsame]
  simp only [hkeys]

/-! ## Order of insertion -/

theorem lastInsert_of_pairwise
    (h : inserts.Pairwise fun i j => normalizeExtension i.1 ≠ normalizeExtension j.1) :
    LastInsert inserts key lines ↔
      ∃ extension, (extension, lines) ∈ inserts ∧ normalizeExtension extension = key := by
  constructor
  · rintro ⟨before, extension, after, rfl, hkey, -⟩
    exact ⟨extension, by simp, hkey⟩
  · rintro ⟨extension, hmem, hkey⟩
    obtain ⟨before, after, rfl⟩ := List.append_of_mem hmem
    obtain ⟨hafter, -⟩ := List.pairwise_cons.mp (List.pairwise_append.mp h).2.1
    exact ⟨before, extension, after, rfl, hkey, fun i hi heq => hafter i hi (hkey.trans heq.symm)⟩

theorem mem_entries_perm {inserts' : List (Text × List Text)} (hperm : inserts.Perm inserts')
    (h : inserts.Pairwise fun i j => normalizeExtension i.1 ≠ normalizeExtension j.1)
    (entry : Text × List Text) :
    entry ∈ (ofInserts inserts).entries ↔ entry ∈ (ofInserts inserts').entries := by
  have h' := (hperm.pairwise_iff fun hne => Ne.symm hne).mp h
  obtain ⟨key, lines⟩ := entry
  rw [mem_entries_ofInserts, mem_entries_ofInserts, lastInsert_of_pairwise h,
    lastInsert_of_pairwise h']
  simp only [hperm.mem_iff]

theorem bytes_lt_of_suffix {s t : Text} (h : s <:+ t) (hne : s ≠ t) : s.bytes < t.bytes := by
  obtain ⟨front, rfl⟩ := h
  cases front with
  | nil => simp at hne
  | cons c front =>
    have := c.utf8Size_pos
    simp only [List.cons_append, bytes_cons, bytes_append]
    omega

/-- A file gets a header exactly if an inserted extension ends its name, and then the one of the
longest such extension that was inserted last. Different extensions may be inserted in any order. -/
theorem lookup?_ofInserts (inserts : List (Text × List Text)) (name : Text) :
    (((ofInserts inserts).lookup? name).isSome ↔
      ∃ key ∈ (ofInserts inserts).keys, key <:+ lower name) ∧
    (∀ key, key ∈ (ofInserts inserts).keys ↔
      key ≠ [] ∧ ∃ i ∈ inserts, normalizeExtension i.1 = key) ∧
    (∀ key lines, (ofInserts inserts).lookup? name = some (key, lines) →
      key ∈ (ofInserts inserts).keys ∧ key <:+ lower name ∧
      (∀ other ∈ (ofInserts inserts).keys, other <:+ lower name → other ≠ key →
        other.bytes < key.bytes) ∧
      LastInsert inserts key lines) ∧
    ∀ inserts', inserts.Perm inserts' →
      (inserts.Pairwise fun i j => normalizeExtension i.1 ≠ normalizeExtension j.1) →
      (ofInserts inserts').lookup? name = (ofInserts inserts).lookup? name := by
  refine ⟨?_, fun key => mem_keys_ofInserts, fun key lines hfound => ?_,
    fun inserts' hperm hdiffer => ?_⟩
  · rw [Option.isSome_iff_ne_none, ne_eq, lookup?_eq_none_iff]
    simp
  · obtain ⟨hmem, hends, hall⟩ := of_lookup?_eq_some hfound
    refine ⟨List.mem_map_of_mem (f := (·.1)) hmem, hends, fun other hother hends' hne => ?_,
      (mem_entries_ofInserts.mp hmem).2⟩
    exact bytes_lt_of_suffix (hall other hother hends') hne
  · exact (lookup?_congr (distinct_ofInserts _) (distinct_ofInserts _)
      (mem_entries_perm hperm hdiffer)).symm

/-- Headers for all code and for generated code. -/
def generatedCode : List (Text × List Text) :=
  [(".CS".toList, ["// a".toList]), (" generated.cs".toList, ["// b".toList])]

/-- A file of generated code has a header of its own, whichever header was inserted first. -/
theorem lookup?_ofInserts_generatedCode :
    (ofInserts generatedCode).lookup? "Form.Generated.Cs".toList =
        some (".generated.cs".toList, ["// b".toList]) ∧
      (∀ other ∈ (ofInserts generatedCode).keys, other <:+ lower "Form.Generated.Cs".toList →
        other ≠ ".generated.cs".toList → other.bytes < bytes ".generated.cs".toList) ∧
      generatedCode.Perm generatedCode.reverse ∧
      (generatedCode.Pairwise fun i j => normalizeExtension i.1 ≠ normalizeExtension j.1) ∧
      (ofInserts generatedCode.reverse).lookup? "Form.Generated.Cs".toList =
        (ofInserts generatedCode).lookup? "Form.Generated.Cs".toList := by
  have hfound : (ofInserts generatedCode).lookup? "Form.Generated.Cs".toList =
      some (".generated.cs".toList, ["// b".toList]) := by decide +kernel
  have hperm : generatedCode.Perm generatedCode.reverse := (List.reverse_perm _).symm
  have hdiffer : generatedCode.Pairwise fun i j =>
      normalizeExtension i.1 ≠ normalizeExtension j.1 := by decide +kernel
  obtain ⟨-, -, hlongest, hreorder⟩ := lookup?_ofInserts generatedCode "Form.Generated.Cs".toList
  exact ⟨hfound, (hlongest _ _ hfound).2.2.1, hperm, hdiffer, hreorder _ hperm hdiffer⟩

end Masthead.Header.Definitions
