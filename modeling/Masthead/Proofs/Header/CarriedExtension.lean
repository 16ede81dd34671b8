import Masthead.Proofs.FinalSigma
import Masthead.Proofs.Header.Definitions

/-!
# Files found by the extension that they carry

A language and a header are found for a file by the end of its lower-cased name. The name of a file
ends with the extension that it carries, but in lower case it need not end with the extension in
lower case: where the extension opens with a capital sigma that ends a word of the name, the two are
lower-cased apart, and the file is not found.
-/
namespace Masthead
open Text

variable {extension stem name : Text} {lines : List Text}

/-- An extension as it stands behind the last dot of a name: no blank one, without blanks at its ends
and without a dot of its own in front. -/
structure IsBare (extension : Text) : Prop where
  filled : extension.isAllBlank = false
  trimmed : extension.trim = extension
  undotted : extension.head? ≠ some '.'

instance : Decidable (IsBare extension) :=
  decidable_of_iff (extension.isAllBlank = false ∧ extension.trim = extension ∧
    extension.head? ≠ some '.') ⟨fun ⟨h, h', h''⟩ => ⟨h, h', h''⟩, fun ⟨h, h', h''⟩ => ⟨h, h', h''⟩⟩

theorem IsBare.normalizeExtension_eq (h : IsBare extension) :
    normalizeExtension extension = '.' :: lower extension := by
  have hne : lower extension ≠ [] := by
    rw [ne_eq, lower_eq_nil_iff]
    rintro rfl
    exact absurd h.filled (by decide)
  rw [Masthead.normalizeExtension_eq, h.trimmed, if_neg]
  simp [hne, head?_lower_ne_dot h.undotted]

/-- A language of one extension covers the names that end with it in lower case. -/
theorem covers_ofExtensions_iff :
    (Language.ofExtensions [extension]).covers name = true ↔
      normalizeExtension extension ≠ [] ∧ normalizeExtension extension <:+ lower name := by
  simp [Language.covers, Language.ofExtensions, endsWithIgnoringCase,
    lower_of_isLower (isNormal_normalizeExtension extension).lower]

namespace Header.Definitions

variable (hne : normalizeExtension extension ≠ [])
include hne

theorem mem_keys_insert_empty {key : Text} :
    key ∈ (empty.insert extension lines).keys ↔ key = normalizeExtension extension := by
  have hkeys := @mem_keys_ofInserts [(extension, lines)] key
  refine hkeys.trans ⟨?_, ?_⟩
  · rintro ⟨-, i, hi, hkey⟩
    rw [← hkey, List.mem_singleton.mp hi]
  · rintro rfl
    exact ⟨hne, (extension, lines), by simp, rfl⟩

theorem mem_entries_insert_empty :
    (normalizeExtension extension, lines) ∈ (empty.insert extension lines).entries :=
  mem_entries_ofInserts.mpr ⟨hne, [], extension, [], rfl, rfl, by simp⟩

/-- The only header is found exactly for the names that end with its extension. -/
theorem lookup?_insert_empty_eq_some_iff :
    (empty.insert extension lines).lookup? name = some (normalizeExtension extension, lines) ↔
      normalizeExtension extension <:+ lower name := by
  have hempty : empty.Distinct := List.nodup_nil
  rw [lookup?_eq_some_iff (hempty.insert extension lines)]
  constructor
  · exact fun h => h.2.1
  · refine fun h => ⟨mem_entries_insert_empty hne, h, fun k hk _ => ?_⟩
    rw [(mem_keys_insert_empty hne).mp hk]

theorem lookup?_insert_empty_eq_none_iff :
    (empty.insert extension lines).lookup? name = none ↔
      ¬ normalizeExtension extension <:+ lower name := by
  rw [lookup?_eq_none_iff]
  constructor
  · exact fun h => h _ ((mem_keys_insert_empty hne).mpr rfl)
  · intro h k hk
    rwa [(mem_keys_insert_empty hne).mp hk]

end Header.Definitions

/-- A file is found by the extension that it carries, both for its language and for its header,
unless the extension opens with a capital sigma that no cased character follows and the stem ends,
apart from case-ignorable characters, with a cased one; then neither is found. -/
theorem IsBare.found_iff (h : IsBare extension) (stem : Text) (lines : List Text) :
    ((Language.ofExtensions [extension]).covers (stem ++ '.' :: extension) = true ↔
      ¬ (leadsToCased stem.reverse = true ∧ OpensWithSigma extension)) ∧
    ((Header.Definitions.empty.insert extension lines).lookup? (stem ++ '.' :: extension) =
        some (normalizeExtension extension, lines) ↔
      ¬ (leadsToCased stem.reverse = true ∧ OpensWithSigma extension)) ∧
    ((Header.Definitions.empty.insert extension lines).lookup? (stem ++ '.' :: extension) = none ↔
      leadsToCased stem.reverse = true ∧ OpensWithSigma extension) := by
  have hne : normalizeExtension extension ≠ [] := by simp [h.normalizeExtension_eq]
  have hends : normalizeExtension extension <:+ lower (stem ++ '.' :: extension) ↔
      ¬ (leadsToCased stem.reverse = true ∧ OpensWithSigma extension) := by
    rw [h.normalizeExtension_eq, dot_lower_suffix_iff]
  refine ⟨?_, ?_, ?_⟩
  · rw [covers_ofExtensions_iff, hends]
    exact and_iff_right hne
  · rw [Header.Definitions.lookup?_insert_empty_eq_some_iff hne, hends]
  · rw [Header.Definitions.lookup?_insert_empty_eq_none_iff hne, hends, not_not]

/-- The sigma of `A.Σ` ends the word that begins with the stem, and the one of `1.Σ` does not. -/
theorem found_iff_sigma :
    IsBare "Σ".toList ∧
    (Language.ofExtensions ["Σ".toList]).covers "1.Σ".toList = true ∧
    (Header.Definitions.empty.insert "Σ".toList ["// H".toList]).lookup? "A.Σ".toList = none := by
  have hbare : IsBare "Σ".toList := by decide
  have hopens : OpensWithSigma "Σ".toList := ⟨[], [], rfl, by simp, rfl⟩
  have hword : leadsToCased "A".toList.reverse = true := by decide +kernel
  have hnone : leadsToCased "1".toList.reverse = false := by decide +kernel
  have hapart : ¬ (leadsToCased "1".toList.reverse = true ∧ OpensWithSigma "Σ".toList) :=
    fun hcased => Bool.false_ne_true (hnone.symm.trans hcased.1)
  exact ⟨hbare, (hbare.found_iff "1".toList []).1.mpr hapart,
    (hbare.found_iff "A".toList ["// H".toList]).2.2.mpr ⟨hword, hopens⟩⟩

/-- A file need not be found by the extension that it carries. -/
theorem not_found_by_extension : ¬ ∀ (extension stem : Text) (lines : List Text), IsBare extension →
    (Language.ofExtensions [extension]).covers (stem ++ '.' :: extension) = true ∧
    (Header.Definitions.empty.insert extension lines).lookup? (stem ++ '.' :: extension) =
      some (normalizeExtension extension, lines) := by
  intro h
  have hcovers : (Language.ofExtensions ["Σ".toList]).covers "a.Σ".toList = false := by
    decide +kernel
  have hfound := (h "Σ".toList "a".toList [] (by decide)).1
  exact absurd (hcovers.symm.trans hfound) (by decide)

end Masthead
