import Masthead.Proofs.LowerCase

namespace Masthead.Text

variable {before before' s t : Text} {c d : Char}

/-- The text starts, apart from case-ignorable characters, with a capital sigma that no cased
character follows. Whether the sigma ends a word depends on what stands in front of the text. -/
def OpensWithSigma (t : Text) : Prop :=
  ∃ front rest, t = front ++ 'Σ' :: rest ∧ (∀ c ∈ front, isCaseIgnorable c) ∧
    leadsToCased rest = false

theorem isCaseIgnorable_sigma : isCaseIgnorable 'Σ' = false := by decide +kernel

theorem leadsToCased_sigma_cons (t : Text) : leadsToCased ('Σ' :: t) = true := by
  have hcased : isCased 'Σ' = true := by decide +kernel
  simp [leadsToCased_cons, isCaseIgnorable_sigma, hcased]

theorem leadsToCased_dot_cons (t : Text) : leadsToCased ('.' :: t) = leadsToCased t := by
  have hdot : isCaseIgnorable '.' = true := by decide +kernel
  rw [leadsToCased_cons, if_pos hdot]

theorem not_opensWithSigma_nil : ¬ OpensWithSigma [] := by
  rintro ⟨front, rest, ht, -⟩
  simp at ht

theorem opensWithSigma_sigma_cons : OpensWithSigma ('Σ' :: t) ↔ leadsToCased t = false := by
  constructor
  · rintro ⟨front, rest, ht, hfront, hrest⟩
    cases front with
    | nil =>
      obtain ⟨-, rfl⟩ := List.cons.inj ht
      exact hrest
    | cons c front =>
      obtain ⟨rfl, -⟩ := List.cons.inj ht
      have hsigma := hfront 'Σ' (by simp)
      rw [isCaseIgnorable_sigma] at hsigma
      cases hsigma
  · exact fun h => ⟨[], t, rfl, by simp, h⟩

theorem opensWithSigma_cons (hc : c ≠ 'Σ') :
    OpensWithSigma (c :: t) ↔ isCaseIgnorable c ∧ OpensWithSigma t := by
  constructor
  · rintro ⟨front, rest, ht, hfront, hrest⟩
    cases front with
    | nil => exact absurd (List.cons.inj ht).1 hc
    | cons d front =>
      obtain ⟨rfl, rfl⟩ := List.cons.inj ht
      exact ⟨hfront c (by simp), front, rest, rfl,
        fun d hd => hfront d (List.mem_cons_of_mem _ hd), hrest⟩
  · rintro ⟨hignored, front, rest, rfl, hfront, hrest⟩
    exact ⟨c :: front, rest, rfl, List.forall_mem_cons.mpr ⟨hignored, hfront⟩, hrest⟩

/-- Behind a cased character a text is lower-cased as behind none, unless its first sigma ends a
word. -/
theorem lowerBehind_eq_lowerBehind_iff (h : leadsToCased before = true)
    (h' : leadsToCased before' = false) :
    lowerBehind before t = lowerBehind before' t ↔ ¬ OpensWithSigma t := by
  induction t generalizing before before' with
  | nil => exact iff_of_true rfl not_opensWithSigma_nil
  | cons c t ih =>
    rw [lowerBehind_cons, lowerBehind_cons]
    by_cases hc : c = 'Σ'
    · subst hc
      have hrest : lowerBehind ('Σ' :: before) t = lowerBehind ('Σ' :: before') t :=
        lowerBehind_congr (by rw [leadsToCased_sigma_cons, leadsToCased_sigma_cons]) t
      rw [hrest, List.append_left_inj, opensWithSigma_sigma_cons, lowerBetween, lowerBetween, h, h']
      cases leadsToCased t <;> decide
    · rw [opensWithSigma_cons hc, lowerBetween, lowerBetween, if_neg hc, if_neg hc,
        List.append_right_inj]
      cases hignored : isCaseIgnorable c with
      | true =>
        rw [ih (by rw [leadsToCased_cons, if_pos hignored, h])
          (by rw [leadsToCased_cons, if_pos hignored, h'])]
        simp
      | false =>
        refine iff_of_true (lowerBehind_congr ?_ t) (by simp)
        rw [leadsToCased_cons, leadsToCased_cons, hignored]
        rfl

/-- A text is lower-cased as on its own unless its first sigma ends a word that begins in front. -/
theorem lowerBehind_eq_lower_iff :
    lowerBehind before t = lower t ↔ ¬ (leadsToCased before = true ∧ OpensWithSigma t) := by
  cases h : leadsToCased before with
  | true => simpa [lower] using lowerBehind_eq_lowerBehind_iff (t := t) h leadsToCased_nil
  | false => exact iff_of_true (lowerBehind_congr h t) (by simp)

theorem length_lowerBehind (before before' t : Text) :
    (lowerBehind before t).length = (lowerBehind before' t).length := by
  induction t generalizing before before' with
  | nil => rfl
  | cons c t ih =>
    have hlength : (lowerBetween before c t).length = (lowerBetween before' c t).length := by
      unfold lowerBetween
      split <;> rfl
    rw [lowerBehind_cons, lowerBehind_cons, List.length_append, List.length_append, hlength, ih]

theorem exists_lowerBehind_append (before s t : Text) :
    ∃ front, lowerBehind before (s ++ t) = front ++ lowerBehind (s.reverse ++ before) t := by
  induction s generalizing before with
  | nil => exact ⟨[], rfl⟩
  | cons c s ih =>
    obtain ⟨front, hfront⟩ := ih (c :: before)
    refine ⟨lowerBetween before c (s ++ t) ++ front, ?_⟩
    rw [List.cons_append, lowerBehind_cons, hfront, List.append_assoc, List.reverse_cons,
      List.append_assoc]
    rfl

/-- An extension in lower case ends the lower-cased name that carries it, unless a sigma that the
extension opens with ends a word of the name. -/
theorem dot_lower_suffix_iff : '.' :: lower t <:+ lower (s ++ '.' :: t) ↔
    ¬ (leadsToCased s.reverse = true ∧ OpensWithSigma t) := by
  obtain ⟨front, hfront⟩ := exists_lowerBehind_append [] s ('.' :: t)
  have hdot : lowerBehind (s.reverse ++ []) ('.' :: t) =
      '.' :: lowerBehind ('.' :: s.reverse) t := by
    rw [List.append_nil, lowerBehind_cons, lowerBetween, if_neg (by decide)]
    rfl
  have hlower : lower (s ++ '.' :: t) = front ++ '.' :: lowerBehind ('.' :: s.reverse) t := by
    rw [lower, hfront, hdot]
  rw [hlower, ← leadsToCased_dot_cons, ← lowerBehind_eq_lower_iff, lower]
  constructor
  · intro hsuffix
    have hlength := length_lowerBehind ('.' :: s.reverse) [] t
    have hwhole := List.suffix_of_suffix_length_le hsuffix (List.suffix_append front _)
      (by simp [hlength])
    exact (List.cons.inj (hwhole.eq_of_length (by simp [hlength]))).2.symm
  · intro heq
    rw [heq]
    exact List.suffix_append front _

theorem eq_dot_of_mem_lowerChar (h : '.' ∈ lowerChar c) : c = '.' := by
  unfold lowerChar at h
  split at h
  · have hlower : c.toLower = '.' := (List.mem_singleton.mp h).symm
    rcases toLower_cases c with hsame | ⟨hle, hge, hshift⟩
    · rw [← hsame, hlower]
    · rw [hlower] at hshift
      have hcode : '.'.toNat = 46 := rfl
      omega
  · split at h
    · exact absurd h (by decide)
    · cases hs : Table.shifted? Table.lowerShifts c.toNat with
      | none =>
        rw [hs, Option.map_none, Option.getD_none, List.mem_singleton] at h
        exact h.symm
      | some m =>
        rw [hs, Option.map_some, Option.getD_some, List.mem_singleton] at h
        have hlow := (shifted?_lowerShifts hs).1
        have hcode : 46 = if m.isValidChar then m else 0 := by
          rw [← Char.toNat_ofNat, ← h]
          rfl
        split at hcode <;> omega

theorem head?_lower_ne_dot (h : t.head? ≠ some '.') : (lower t).head? ≠ some '.' := by
  cases t with
  | nil => simp [lower, lowerBehind]
  | cons c t =>
    intro hhead
    rw [lower, lowerBehind_cons, List.head?_append_of_ne_nil _ (lowerBetween_ne_nil [] c t)] at hhead
    have hmem := List.mem_of_mem_head? hhead
    unfold lowerBetween at hmem
    split at hmem
    · exact absurd (List.mem_singleton.mp hmem) (by split <;> decide)
    · exact h (by rw [eq_dot_of_mem_lowerChar hmem]; rfl)

end Masthead.Text
