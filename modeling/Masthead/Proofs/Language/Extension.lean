import Masthead.Language.Basic
import Masthead.Proofs.LowerCase

namespace Masthead
open Text

variable {extension : Text}

theorem normalizeExtension_eq (extension : Text) :
    normalizeExtension extension =
      if (lower extension.trim).head? ∈ [none, some '.'] then lower extension.trim
      else '.' :: lower extension.trim := by
  unfold normalizeExtension
  split
  · rename_i h
    rw [h]
    rfl
  · rename_i name h
    rw [h]
    rfl
  · rename_i h hdot
    rw [if_neg]
    cases hname : lower extension.trim with
    | nil => exact absurd hname h
    | cons c name =>
      simp only [List.head?_cons, List.mem_cons, reduceCtorEq, Option.some.injEq, List.not_mem_nil,
        or_false, false_or]
      rintro rfl
      exact hdot name hname

/-- An extension as it is written in lower case, with its dot and without blanks at its ends. -/
structure IsNormal (extension : Text) : Prop where
  lower : ∀ c ∈ extension, IsLower c
  dotted : extension.head? ∈ [none, some '.']
  start : extension.trimStart = extension
  stop : trimStart extension.reverse = extension.reverse

theorem IsNormal.normalizeExtension_eq_self (h : IsNormal extension) :
    normalizeExtension extension = extension := by
  rw [normalizeExtension_eq, trim_eq_self h.start h.stop, lower_of_isLower h.lower, if_pos h.dotted]

theorem isNormal_normalizeExtension (extension : Text) :
    IsNormal (normalizeExtension extension) := by
  have hlower : ∀ c ∈ lower extension.trim, IsLower c := fun _ => isLower_of_mem_lowerBehind
  have hstart := trimStart_lower (trimStart_trim extension)
  have hstop := trimStart_reverse_lower (trimStart_reverse_trim extension)
  rw [normalizeExtension_eq]
  split
  · rename_i hdot
    exact ⟨hlower, hdot, hstart, hstop⟩
  · rename_i hdot
    obtain ⟨c, name, hname⟩ : ∃ c name, (lower extension.trim).reverse = c :: name := by
      refine List.exists_cons_of_ne_nil fun hnil => hdot ?_
      rw [List.reverse_eq_nil_iff.mp hnil]
      decide
    refine ⟨?_, by simp, trimStart_cons (by decide) _, ?_⟩
    · exact List.forall_mem_cons.mpr ⟨by decide, hlower⟩
    · rw [List.reverse_cons, hname]
      rw [hname] at hstop
      exact trimStart_cons (isBlank_head_trimStart hstop) _

@[simp] theorem normalizeExtension_normalizeExtension (extension : Text) :
    normalizeExtension (normalizeExtension extension) = normalizeExtension extension :=
  (isNormal_normalizeExtension extension).normalizeExtension_eq_self

theorem normalizeExtension_eq_nil_iff :
    normalizeExtension extension = [] ↔ extension.isAllBlank := by
  rw [normalizeExtension_eq, ← trim_eq_nil_iff, ← lower_eq_nil_iff (t := extension.trim)]
  split
  · rfl
  · rename_i hdot
    refine iff_of_false (by simp) fun hnil => hdot ?_
    rw [hnil]
    decide

theorem dot_mem_normalizeExtension (h : normalizeExtension extension ≠ []) :
    '.' ∈ normalizeExtension extension := by
  have hdotted := (isNormal_normalizeExtension extension).dotted
  cases hname : normalizeExtension extension with
  | nil => exact absurd hname h
  | cons c name =>
    rw [hname] at hdotted
    simp only [List.head?_cons, List.mem_cons, reduceCtorEq, Option.some.injEq, List.not_mem_nil,
      or_false, false_or] at hdotted
    simp [hdotted]

end Masthead
