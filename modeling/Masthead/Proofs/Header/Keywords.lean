import Masthead.Header.Rule
import Masthead.Proofs.LetterCase

namespace Masthead.Header
open Text

variable {keywords : List Text} {keyword : Text}

theorem core_of_mem_normalizeKeywords (h : keyword ∈ normalizeKeywords keywords) :
    keyword ≠ [] ∧ keyword.trimStart = keyword ∧ trimStart keyword.reverse = keyword.reverse := by
  obtain ⟨hmem, hne⟩ := List.mem_filter.mp h
  obtain ⟨given, -, rfl⟩ := List.mem_map.mp hmem
  exact ⟨by simpa using hne, trimStart_lower (trimStart_trim given),
    trimStart_reverse_lower (trimStart_reverse_trim given)⟩

theorem contains_lower_blanks_append (h : keyword ∈ normalizeKeywords keywords) {blanks : Text}
    (hb : blanks.isAllBlank) (t : Text) :
    contains keyword (lower (blanks ++ t)) = contains keyword (lower t) := by
  obtain ⟨hne, hcore, -⟩ := core_of_mem_normalizeKeywords h
  rw [Bool.eq_iff_iff, contains_eq_true_iff, contains_eq_true_iff, lower_blanks_append hb,
    infix_blanks_append_iff hb hcore hne]

theorem contains_lower_append_blanks (h : keyword ∈ normalizeKeywords keywords) {blanks : Text}
    (hb : blanks.isAllBlank) (t : Text) :
    contains keyword (lower (t ++ blanks)) = contains keyword (lower t) := by
  obtain ⟨hne, -, hcore⟩ := core_of_mem_normalizeKeywords h
  rw [Bool.eq_iff_iff, contains_eq_true_iff, contains_eq_true_iff, lower_append_blanks hb,
    infix_append_blanks_iff hb hcore hne]

namespace Rule

variable {r : Rule}

theorem passesGate_congr {s t : Text}
    (h : ∀ k ∈ r.keywords, contains k (lower s) = contains k (lower t)) :
    r.passesGate s = r.passesGate t := by
  rw [Bool.eq_iff_iff]
  simp only [passesGate, Bool.or_eq_true, List.any_eq_true]
  exact or_congr_right (exists_congr fun k => and_congr_right fun hk => by rw [h k hk])

variable (hr : r.keywords = normalizeKeywords keywords)
include hr

theorem passesGate_blanks_append {blanks : Text} (hb : blanks.isAllBlank) (t : Text) :
    r.passesGate (blanks ++ t) = r.passesGate t :=
  passesGate_congr fun _ hk => contains_lower_blanks_append (hr ▸ hk) hb t

theorem passesGate_append_blanks {blanks : Text} (hb : blanks.isAllBlank) (t : Text) :
    r.passesGate (t ++ blanks) = r.passesGate t :=
  passesGate_congr fun _ hk => contains_lower_append_blanks (hr ▸ hk) hb t

theorem passesGate_trimStart (t : Text) : r.passesGate t.trimStart = r.passesGate t := by
  conv_rhs => rw [← takeWhile_append_trimStart t]
  exact (passesGate_blanks_append hr (isAllBlank_takeWhile t) _).symm

end Rule

end Masthead.Header
