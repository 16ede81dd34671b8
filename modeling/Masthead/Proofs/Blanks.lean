import Mathlib.Data.List.DropRight
import Mathlib.Data.List.TakeWhile
import Masthead.Comment.Leading

namespace Masthead

theorem isLineBreak_eq_false_of_isBlank_eq_false {c : Char} (h : isBlank c = false) :
    isLineBreak c = false := by
  cases hc : isLineBreak c with
  | false => rfl
  | true => simp [isBlank_of_isLineBreak hc] at h

theorem eq_cr_or_eq_lf {c : Char} (h : isLineBreak c) : c = '\r' ∨ c = '\n' := by
  simpa [isLineBreak] using h

namespace Text

@[simp] theorem isAllBlank_nil : isAllBlank [] = true := rfl

@[simp] theorem isAllBlank_cons (c : Char) (t : Text) :
    isAllBlank (c :: t) = (isBlank c && isAllBlank t) := rfl

@[simp] theorem isAllBlank_append (s t : Text) :
    isAllBlank (s ++ t) = (isAllBlank s && isAllBlank t) := List.all_append

theorem isAllBlank_iff {t : Text} : isAllBlank t ↔ ∀ c ∈ t, isBlank c := List.all_eq_true

theorem trimStart_append {blanks : Text} (h : isAllBlank blanks) (t : Text) :
    trimStart (blanks ++ t) = trimStart t :=
  List.dropWhile_append_of_pos (isAllBlank_iff.mp h)

theorem trimStart_eq_nil_iff {t : Text} : trimStart t = [] ↔ isAllBlank t := by
  rw [isAllBlank_iff]
  exact List.dropWhile_eq_nil_iff

theorem trimStart_ne_nil {t : Text} (h : isAllBlank t = false) : trimStart t ≠ [] := by
  rw [ne_eq, trimStart_eq_nil_iff, h]
  simp

theorem isAllBlank_takeWhile (t : Text) : isAllBlank (t.takeWhile isBlank) :=
  isAllBlank_iff.mpr fun _ => List.mem_takeWhile_imp

theorem takeWhile_append_trimStart (t : Text) : t.takeWhile isBlank ++ trimStart t = t :=
  List.takeWhile_append_dropWhile

theorem exists_append_trimStart (t : Text) :
    ∃ blanks : Text, isAllBlank blanks ∧ t = blanks ++ trimStart t :=
  ⟨_, isAllBlank_takeWhile t, (takeWhile_append_trimStart t).symm⟩

theorem isBlank_head_trimStart {c : Char} {s t : Text} (h : trimStart t = c :: s) :
    isBlank c = false := by
  have := List.head?_dropWhile_not isBlank t
  simpa [show t.dropWhile isBlank = c :: s from h] using this

theorem trimStart_cons {c : Char} (h : isBlank c = false) (t : Text) :
    trimStart (c :: t) = c :: t := List.dropWhile_cons_of_neg (by simp [h])

@[simp] theorem trimStart_trimStart (t : Text) : trimStart (trimStart t) = trimStart t := by
  cases h : trimStart t with
  | nil => rfl
  | cons c s => exact trimStart_cons (isBlank_head_trimStart h) s

theorem takeWhile_isBlank_append {blanks t : Text} (h : isAllBlank blanks)
    (ht : trimStart t = t) : (blanks ++ t).takeWhile isBlank = blanks := by
  rw [List.takeWhile_append_of_pos (isAllBlank_iff.mp h)]
  cases t with
  | nil => simp
  | cons c t => simp [isBlank_head_trimStart ht]

theorem trimStart_of_isPrefix {s t : Text} (h : s <+: t) (ht : trimStart t = t) :
    trimStart s = s := by
  obtain ⟨rest, rfl⟩ := h
  cases s with
  | nil => rfl
  | cons c s => exact trimStart_cons (isBlank_head_trimStart ht) s

theorem trimStart_trim (t : Text) : (trim t).trimStart = trim t :=
  trimStart_of_isPrefix (List.rdropWhile_prefix (p := isBlank) (trimStart t))
    (trimStart_trimStart t)

theorem trimStart_reverse_trim (t : Text) : trimStart (trim t).reverse = (trim t).reverse := by
  rw [show (trim t).reverse = trimStart (trimStart t).reverse from List.reverse_reverse _,
    trimStart_trimStart]

theorem trim_eq_self {t : Text} (hstart : trimStart t = t)
    (hend : trimStart t.reverse = t.reverse) : trim t = t := by
  rw [trim, hstart, show trimEnd t = (trimStart t.reverse).reverse from rfl, hend,
    List.reverse_reverse]

@[simp] theorem isAllBlank_trim (t : Text) : (trim t).isAllBlank = t.isAllBlank := by
  have hreverse : ∀ t : Text, isAllBlank t.reverse = isAllBlank t := fun t => List.all_reverse
  have hstart : ∀ t : Text, (trimStart t).isAllBlank = t.isAllBlank := by
    intro t
    conv_rhs => rw [← takeWhile_append_trimStart t, isAllBlank_append, isAllBlank_takeWhile,
      Bool.true_and]
  rw [show trim t = (trimStart (trimStart t).reverse).reverse from rfl, hreverse, hstart, hreverse,
    hstart]

theorem trim_eq_nil_iff {t : Text} : trim t = [] ↔ t.isAllBlank := by
  constructor
  · intro h
    rw [← isAllBlank_trim, h]
    rfl
  · intro h
    rw [trim, trimStart_eq_nil_iff.mpr h]
    rfl

theorem append_core_inj {blanks blanks' t t' : Text} (hb : isAllBlank blanks)
    (hb' : isAllBlank blanks') (ht : trimStart t = t) (ht' : trimStart t' = t')
    (h : blanks ++ t = blanks' ++ t') : blanks = blanks' ∧ t = t' := by
  have hcore := congrArg trimStart h
  rw [trimStart_append hb, trimStart_append hb', ht, ht'] at hcore
  subst hcore
  exact ⟨List.append_cancel_right h, rfl⟩

theorem trimStart_append_of_not_isAllBlank {s : Text} (h : isAllBlank s = false) (t : Text) :
    trimStart (s ++ t) = trimStart s ++ t := by
  obtain ⟨blanks, hb, hs⟩ := exists_append_trimStart s
  cases hc : trimStart s with
  | nil => simp [trimStart_eq_nil_iff.mp hc] at h
  | cons c core =>
    rw [hc] at hs
    rw [hs, List.append_assoc, trimStart_append hb]
    exact trimStart_cons (isBlank_head_trimStart hc) _

/-- A carriage return and a line feed stand on the two sides of a cut. -/
def CutsPair (s t : Text) : Prop := s.getLast? = some '\r' ∧ t.head? = some '\n'

theorem not_cutsPair_cons {c : Char} {s t : Text} (h : ¬ CutsPair (c :: s) t) : ¬ CutsPair s t := by
  rintro ⟨hs, ht⟩
  cases s with
  | nil => simp at hs
  | cons d s => exact h ⟨by simpa using hs, ht⟩

end Text

namespace Comment

def isIndent (c : Char) : Bool := isBlank c && !isLineBreak c

theorem dropIndent_eq_rdropWhile (t : Text) : dropIndent t = t.rdropWhile isIndent := rfl

theorem dropIndent_eq_nil_iff {t : Text} : dropIndent t = [] ↔ ∀ c ∈ t, isIndent c := by
  rw [dropIndent_eq_rdropWhile]
  exact List.rdropWhile_eq_nil_iff

theorem exists_eq_dropIndent_append (t : Text) :
    ∃ indent : Text, t = dropIndent t ++ indent ∧ ∀ c ∈ indent, isIndent c :=
  ⟨t.rtakeWhile isIndent, (List.rdropWhile_append_rtakeWhile ..).symm,
    fun _ hc => List.mem_rtakeWhile_imp hc⟩

@[simp] theorem isAllBlank_dropIndent (t : Text) :
    (dropIndent t).isAllBlank = t.isAllBlank := by
  obtain ⟨indent, ht, hi⟩ := exists_eq_dropIndent_append t
  have hb : indent.isAllBlank := by
    rw [Text.isAllBlank_iff]
    intro c hc
    have := hi c hc
    simp only [isIndent, Bool.and_eq_true] at this
    exact this.1
  conv_rhs => rw [ht, Text.isAllBlank_append, hb, Bool.and_true]

theorem dropIndent_append_of_getLast? {s : Text} {c : Char} (hs : s.getLast? = some c)
    (hc : isLineBreak c) (t : Text) : dropIndent (s ++ t) = s ++ dropIndent t := by
  obtain ⟨s, rfl⟩ := List.getLast?_eq_some_iff.mp hs
  induction t using List.reverseRecOn with
  | nil => simp [dropIndent_eq_rdropWhile, isIndent, hc]
  | append_singleton t d ih =>
    rw [dropIndent_eq_rdropWhile, dropIndent_eq_rdropWhile, ← List.append_assoc,
      List.rdropWhile_concat, List.rdropWhile_concat]
    split
    · exact ih
    · simp

theorem dropIndent_of_getLast? {t : Text} {c : Char} (ht : t.getLast? = some c)
    (hc : isLineBreak c) : dropIndent t = t := by
  have := dropIndent_append_of_getLast? ht hc []
  simpa [show dropIndent [] = [] from rfl] using this

theorem dropIndent_append_of_not_isAllBlank {t : Text} (h : t.isAllBlank = false) (s : Text) :
    dropIndent (s ++ t) = s ++ dropIndent t := by
  induction t using List.reverseRecOn with
  | nil => simp at h
  | append_singleton t d ih =>
    rw [dropIndent_eq_rdropWhile, dropIndent_eq_rdropWhile, ← List.append_assoc,
      List.rdropWhile_concat, List.rdropWhile_concat]
    split
    · rename_i hd
      simp only [isIndent, Bool.and_eq_true] at hd
      exact ih (by simpa [hd.1] using h)
    · simp

end Comment
end Masthead
