import Mathlib
import Masthead.Proofs.Occurrences
import Masthead.Text.Case

namespace Masthead.Text

def blankCodes : List Nat :=
  [9, 10, 11, 12, 13, 0x20, 0x85, 0xA0, 0x1680, 0x2000, 0x2001, 0x2002, 0x2003, 0x2004, 0x2005,
    0x2006, 0x2007, 0x2008, 0x2009, 0x200A, 0x2028, 0x2029, 0x202F, 0x205F, 0x3000]

theorem isBlank_iff_mem {c : Char} : isBlank c ↔ c.toNat ∈ blankCodes := by
  simp only [isBlank, blankCodes, Bool.or_eq_true, Bool.and_eq_true, decide_eq_true_eq, beq_iff_eq,
    List.mem_cons, List.not_mem_nil, or_false]
  omega

theorem inRanges_eq_false {ranges : List (Nat × Nat)} {c : Char} (h : isBlank c)
    (hranges : ∀ r ∈ ranges, ∀ n ∈ blankCodes, ¬ (r.1 ≤ n ∧ n ≤ r.2)) :
    inRanges ranges c = false := by
  rw [inRanges, List.any_eq_false]
  intro r hr
  simpa using hranges r hr c.toNat (isBlank_iff_mem.mp h)

theorem isCased_eq_false {c : Char} (h : isBlank c) : isCased c = false :=
  inRanges_eq_false h (by decide +kernel)

theorem isCaseIgnorable_eq_false {c : Char} (h : isBlank c) : isCaseIgnorable c = false :=
  inRanges_eq_false h (by decide +kernel)

theorem shifted?_eq_none {c : Char} (h : isBlank c) :
    Table.shifted? Table.lowerShifts c.toNat = none := by
  have hall : ∀ n ∈ blankCodes, Table.shifted? Table.lowerShifts n = none := by decide +kernel
  exact hall c.toNat (isBlank_iff_mem.mp h)

theorem notMem_blankCodes_of_shifted? {n m : Nat}
    (h : Table.shifted? Table.lowerShifts n = some m) : m ∉ blankCodes := by
  have hall : ∀ s ∈ Table.lowerShifts, ∀ b ∈ blankCodes,
      ¬ ((s.first : Int) + s.offset ≤ b ∧ (b : Int) ≤ s.last + s.offset) := by
    decide +kernel
  obtain ⟨s, hs, rfl⟩ := Option.map_eq_some_iff.mp h
  have hcovers := List.find?_some hs
  simp only [Table.Shift.covers, Bool.and_eq_true, decide_eq_true_eq] at hcovers
  intro hm
  have hpos : ((n : Int) + s.offset).toNat ≠ 0 := fun h0 => absurd (h0 ▸ hm) (by decide)
  have := hall s (List.mem_of_find?_eq_some hs) _ hm
  omega

theorem toLower_cases (c : Char) :
    c.toLower = c ∨ 65 ≤ c.toNat ∧ c.toNat ≤ 90 ∧ c.toLower.toNat = c.toNat + 32 := by
  unfold Char.toLower
  split
  · rename_i h
    have hle : 65 ≤ c.val.toNat := UInt32.le_iff_toNat_le.mp h.1
    have hge : c.val.toNat ≤ 90 := UInt32.le_iff_toNat_le.mp h.2
    refine .inr ⟨hle, hge, ?_⟩
    show (c.val + 32).toNat = c.val.toNat + 32
    rw [UInt32.toNat_add, show (32 : UInt32).toNat = 32 from rfl, Nat.mod_eq_of_lt (by omega)]
  · exact .inl rfl

@[simp] theorem isBlank_toLower (c : Char) : isBlank c.toLower = isBlank c := by
  have hupper : ∀ n ∈ blankCodes, ¬ (65 ≤ n ∧ n ≤ 90) := by decide
  have hlower : ∀ n ∈ blankCodes, ¬ (97 ≤ n ∧ n ≤ 122) := by decide
  rcases toLower_cases c with hc | ⟨hle, hge, hc⟩
  · rw [hc]
  · rw [Bool.eq_iff_iff, isBlank_iff_mem, isBlank_iff_mem, hc]
    constructor
    · exact fun h => absurd (hlower _ h) (by omega)
    · exact fun h => absurd (hupper _ h) (by omega)

theorem toLower_of_isBlank {c : Char} (h : isBlank c) : c.toLower = c := by
  have hall : ∀ n ∈ blankCodes, ¬ (65 ≤ n ∧ n ≤ 90) := by decide
  exact (toLower_cases c).resolve_right fun hc =>
    hall c.toNat (isBlank_iff_mem.mp h) ⟨hc.1, hc.2.1⟩

theorem isBlank_ofNat {n : Nat} (h : n ∉ blankCodes) : isBlank (Char.ofNat n) = false := by
  rw [← Bool.not_eq_true, isBlank_iff_mem, Char.toNat_ofNat]
  split
  · exact h
  · decide

@[simp] theorem lowerChar_of_isBlank {c : Char} (h : isBlank c) : lowerChar c = [c] := by
  unfold lowerChar
  split
  · rw [toLower_of_isBlank h]
  · split
    · rename_i hc
      subst hc
      exact absurd h (by decide)
    · simp [shifted?_eq_none h]

theorem lowerChar_ne_nil (c : Char) : lowerChar c ≠ [] := by
  unfold lowerChar
  split
  · simp
  · split <;> simp

theorem isBlank_of_mem_lowerChar {c d : Char} (h : isBlank c = false) (hd : d ∈ lowerChar c) :
    isBlank d = false := by
  unfold lowerChar at hd
  split at hd
  · rw [List.mem_singleton.mp hd, isBlank_toLower, h]
  · split at hd
    · simp only [List.mem_cons, List.not_mem_nil, or_false] at hd
      rcases hd with rfl | rfl <;> decide
    · cases hs : Table.shifted? Table.lowerShifts c.toNat with
      | none =>
        rw [hs, Option.map_none, Option.getD_none, List.mem_singleton] at hd
        rw [hd, h]
      | some m =>
        rw [hs, Option.map_some, Option.getD_some, List.mem_singleton] at hd
        rw [hd, isBlank_ofNat (notMem_blankCodes_of_shifted? hs)]

/-- What stands in the text for a character that is lower-cased between two texts. -/
def lowerBetween (before : Text) (c : Char) (t : Text) : Text :=
  if c = 'Σ' then [if leadsToCased before && !leadsToCased t then 'ς' else 'σ'] else lowerChar c

theorem lowerBehind_cons (before : Text) (c : Char) (t : Text) :
    lowerBehind before (c :: t) = lowerBetween before c t ++ lowerBehind (c :: before) t := rfl

theorem lowerBetween_of_isBlank {c : Char} (h : isBlank c) (before t : Text) :
    lowerBetween before c t = [c] := by
  have hc : c ≠ 'Σ' := by
    rintro rfl
    exact absurd h (by decide)
  rw [lowerBetween, if_neg hc, lowerChar_of_isBlank h]

theorem lowerBetween_ne_nil (before : Text) (c : Char) (t : Text) :
    lowerBetween before c t ≠ [] := by
  unfold lowerBetween
  split
  · simp
  · exact lowerChar_ne_nil c

theorem isBlank_of_mem_lowerBetween {before t : Text} {c d : Char} (h : isBlank c = false)
    (hd : d ∈ lowerBetween before c t) : isBlank d = false := by
  unfold lowerBetween at hd
  split at hd
  · rw [List.mem_singleton.mp hd]
    split <;> decide
  · exact isBlank_of_mem_lowerChar h hd

theorem leadsToCased_cons (c : Char) (t : Text) :
    leadsToCased (c :: t) = if isCaseIgnorable c then leadsToCased t else isCased c := by
  cases h : isCaseIgnorable c <;> simp [leadsToCased, h]

@[simp] theorem leadsToCased_nil : leadsToCased [] = false := rfl

theorem leadsToCased_of_isBlank {c : Char} (h : isBlank c) (t : Text) :
    leadsToCased (c :: t) = false := by
  simp [leadsToCased_cons, isCaseIgnorable_eq_false h, isCased_eq_false h]

theorem leadsToCased_append {blanks : Text} (h : blanks.isAllBlank) (t : Text) :
    leadsToCased (t ++ blanks) = leadsToCased t := by
  induction t with
  | nil =>
    cases blanks with
    | nil => rfl
    | cons b blanks =>
      simp only [isAllBlank_cons, Bool.and_eq_true] at h
      exact leadsToCased_of_isBlank h.1 blanks
  | cons c t ih => rw [List.cons_append, leadsToCased_cons, leadsToCased_cons, ih]

theorem lowerBehind_congr {before before' : Text}
    (h : leadsToCased before = leadsToCased before') (t : Text) :
    lowerBehind before t = lowerBehind before' t := by
  induction t generalizing before before' with
  | nil => rfl
  | cons c t ih =>
    have hc : leadsToCased (c :: before) = leadsToCased (c :: before') := by
      rw [leadsToCased_cons, leadsToCased_cons, h]
    rw [lowerBehind_cons, lowerBehind_cons, ih hc, lowerBetween, lowerBetween, h]

theorem lowerBehind_blanks {blanks : Text} (h : blanks.isAllBlank) (before : Text) :
    lowerBehind before blanks = blanks := by
  induction blanks generalizing before with
  | nil => rfl
  | cons b blanks ih =>
    simp only [isAllBlank_cons, Bool.and_eq_true] at h
    rw [lowerBehind_cons, lowerBetween_of_isBlank h.1, ih h.2]
    rfl

theorem lowerBehind_blanks_append {blanks : Text} (h : blanks.isAllBlank) (hne : blanks ≠ [])
    (before t : Text) : lowerBehind before (blanks ++ t) = blanks ++ lower t := by
  induction blanks generalizing before with
  | nil => exact absurd rfl hne
  | cons b blanks ih =>
    simp only [isAllBlank_cons, Bool.and_eq_true] at h
    rw [List.cons_append, lowerBehind_cons, lowerBetween_of_isBlank h.1]
    by_cases hnil : blanks = []
    · subst hnil
      exact congrArg (b :: ·) (lowerBehind_congr (leadsToCased_of_isBlank h.1 before) t)
    · rw [ih h.2 hnil]
      rfl

theorem lower_blanks_append {blanks : Text} (h : blanks.isAllBlank) (t : Text) :
    lower (blanks ++ t) = blanks ++ lower t := by
  by_cases hne : blanks = []
  · rw [hne]
    rfl
  · exact lowerBehind_blanks_append h hne [] t

theorem lower_append_blanks {blanks : Text} (h : blanks.isAllBlank) (t : Text) :
    lower (t ++ blanks) = lower t ++ blanks := by
  have hbehind : ∀ before, lowerBehind before (t ++ blanks) = lowerBehind before t ++ blanks := by
    induction t with
    | nil => exact fun before => lowerBehind_blanks h before
    | cons c t ih =>
      intro before
      rw [List.cons_append, lowerBehind_cons, lowerBehind_cons, ih, lowerBetween, lowerBetween,
        leadsToCased_append h, List.append_assoc]
  exact hbehind []

theorem eq_of_mem_lowerBetween {before t : Text} {c d : Char} (hd : isBlank d)
    (h : d ∈ lowerBetween before c t) : d = c := by
  cases hc : isBlank c with
  | true => rwa [lowerBetween_of_isBlank hc, List.mem_singleton] at h
  | false => simp [isBlank_of_mem_lowerBetween hc h] at hd

theorem mem_of_mem_lowerBehind {before t : Text} {d : Char} (hd : isBlank d)
    (h : d ∈ lowerBehind before t) : d ∈ t := by
  induction t generalizing before with
  | nil => exact h
  | cons c t ih =>
    rw [lowerBehind_cons, List.mem_append] at h
    rcases h with h | h
    · exact eq_of_mem_lowerBetween hd h ▸ List.mem_cons_self
    · exact List.mem_cons_of_mem c (ih h)

theorem trimStart_lower {t : Text} (h : t.trimStart = t) : (lower t).trimStart = lower t := by
  cases t with
  | nil => rfl
  | cons c t =>
    have hc := isBlank_head_trimStart h
    obtain ⟨d, rest, hd⟩ := List.exists_cons_of_ne_nil (lowerBetween_ne_nil [] c t)
    have hmem : d ∈ lowerBetween [] c t := by simp [hd]
    have hblank := isBlank_of_mem_lowerBetween hc hmem
    rw [lower, lowerBehind_cons, hd]
    exact trimStart_cons hblank _

theorem exists_lowerBehind_concat (before init : Text) (c : Char) :
    ∃ front before', lowerBehind before (init ++ [c]) = front ++ lowerBetween before' c [] := by
  induction init generalizing before with
  | nil => exact ⟨[], before, by simp [lowerBehind_cons, lowerBehind]⟩
  | cons d init ih =>
    obtain ⟨front, before', hfront⟩ := ih (d :: before)
    exact ⟨lowerBetween before d (init ++ [c]) ++ front, before', by
      rw [List.cons_append, lowerBehind_cons, hfront, List.append_assoc]⟩

theorem trimStart_reverse_lower {t : Text} (h : trimStart t.reverse = t.reverse) :
    trimStart (lower t).reverse = (lower t).reverse := by
  induction t using List.reverseRecOn with
  | nil => rfl
  | append_singleton init c _ =>
    rw [List.reverse_concat] at h
    have hc := isBlank_head_trimStart h
    obtain ⟨front, before, hfront⟩ := exists_lowerBehind_concat [] init c
    have hne : (lowerBetween before c []).reverse ≠ [] :=
      mt List.reverse_eq_nil_iff.mp (lowerBetween_ne_nil before c [])
    obtain ⟨d, rest, hd⟩ := List.exists_cons_of_ne_nil hne
    have hmem : d ∈ lowerBetween before c [] := List.mem_reverse.mp (by simp [hd])
    have hblank := isBlank_of_mem_lowerBetween hc hmem
    rw [lower, hfront, List.reverse_append, hd]
    exact trimStart_cons hblank _

end Masthead.Text
