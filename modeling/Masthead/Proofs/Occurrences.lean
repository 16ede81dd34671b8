import Mathlib.Data.List.Infix
import Masthead.Proofs.Blanks

namespace Masthead.Text

theorem isPrefixOf?_eq_some_iff {needle t rest : Text} :
    needle.isPrefixOf? t = some rest ↔ t = needle ++ rest := by
  constructor
  · exact eq_append_of_isPrefixOf?_eq_some
  · rintro rfl
    induction needle with
    | nil => rfl
    | cons c needle ih =>
      rw [List.cons_append, isPrefixOf?_cons_cons, if_pos (beq_self_eq_true c), ih]

theorem isPrefixOf?_append_eq_none {needle t : Text} (h : needle.isPrefixOf? t = none)
    (hlen : needle.length ≤ t.length) (more : Text) : needle.isPrefixOf? (t ++ more) = none := by
  cases hm : needle.isPrefixOf? (t ++ more) with
  | none => rfl
  | some rest =>
    have heq := isPrefixOf?_eq_some_iff.mp hm
    obtain ⟨s, hs⟩ : needle <+: t :=
      List.prefix_of_prefix_length_le (heq ▸ List.prefix_append needle rest)
        (List.prefix_append t more) hlen
    rw [isPrefixOf?_eq_some_iff.mpr hs.symm] at h
    simp at h

theorem length_le_of_splitAtFirst? {needle t before rest : Text}
    (h : splitAtFirst? needle t = some (before, rest)) : needle.length ≤ t.length := by
  rw [eq_of_splitAtFirst?_eq_some h]
  simp only [List.length_append]
  omega

theorem splitAtFirst?_append {needle t before rest : Text} (hn : needle ≠ [])
    (h : splitAtFirst? needle t = some (before, rest)) (more : Text) :
    splitAtFirst? needle (t ++ more) = some (before, rest ++ more) := by
  induction t generalizing before with
  | nil => simp [splitAtFirst?, hn] at h
  | cons c t ih =>
    have hlen := length_le_of_splitAtFirst? h
    simp only [splitAtFirst?, List.cons_append] at h ⊢
    cases hp : needle.isPrefixOf? (c :: t) with
    | some rest' =>
      obtain ⟨rfl, rfl⟩ : [] = before ∧ rest' = rest := by simpa [hp] using h
      have : c :: (t ++ more) = needle ++ (rest' ++ more) := by
        rw [← List.append_assoc, ← isPrefixOf?_eq_some_iff.mp hp, List.cons_append]
      rw [isPrefixOf?_eq_some_iff.mpr this]
    | none =>
      have hnone := isPrefixOf?_append_eq_none hp hlen more
      rw [List.cons_append] at hnone
      obtain ⟨before', hb, rfl⟩ :
          ∃ b, splitAtFirst? needle t = some (b, rest) ∧ c :: b = before := by
        simpa [hp] using h
      simp [hnone, ih hb]

theorem contains_eq_true_iff {needle t : Text} : contains needle t = true ↔ needle <:+: t := by
  induction t with
  | nil => by_cases hn : needle = [] <;> simp [contains, splitAtFirst?, hn]
  | cons c t ih =>
    rw [List.infix_cons_iff, ← ih]
    simp only [contains, splitAtFirst?]
    cases hp : needle.isPrefixOf? (c :: t) with
    | some rest =>
      have : needle <+: c :: t := ⟨rest, (isPrefixOf?_eq_some_iff.mp hp).symm⟩
      simp [this]
    | none =>
      have : ¬ needle <+: c :: t := by
        rintro ⟨rest, hr⟩
        simp [isPrefixOf?_eq_some_iff.mpr hr.symm] at hp
      simp [this]

theorem infix_blanks_append_iff {needle blanks t : Text} (hb : isAllBlank blanks)
    (hn : trimStart needle = needle) (hne : needle ≠ []) :
    needle <:+: blanks ++ t ↔ needle <:+: t := by
  constructor
  · intro h
    induction blanks with
    | nil => exact h
    | cons c blanks ih =>
      simp only [isAllBlank_cons, Bool.and_eq_true] at hb
      rcases List.infix_cons_iff.mp h with hp | hi
      · obtain ⟨d, needle, rfl⟩ := List.exists_cons_of_ne_nil hne
        obtain ⟨rfl, -⟩ := List.cons_prefix_cons.mp hp
        simp [isBlank_head_trimStart hn] at hb
      · exact ih hb.2 hi
  · exact fun h => h.trans (List.suffix_append blanks t).isInfix

theorem infix_append_blanks_iff {needle blanks t : Text} (hb : isAllBlank blanks)
    (hn : trimStart needle.reverse = needle.reverse) (hne : needle ≠ []) :
    needle <:+: t ++ blanks ↔ needle <:+: t := by
  have hrev : isAllBlank blanks.reverse := by simpa [isAllBlank] using hb
  rw [← List.reverse_infix, List.reverse_append,
    infix_blanks_append_iff hrev hn (mt List.reverse_eq_nil_iff.mp hne), List.reverse_infix]

end Masthead.Text
