import Masthead.Proofs.LetterCase

namespace Masthead.Text

namespace Table.Shift

/-- The shift covers some code point from `lo` to `hi`, but for its stride. -/
def meets (s : Shift) (lo hi : Nat) : Bool := lo.ble s.last && s.first.ble hi

theorem covers_iff {s : Shift} {n : Nat} :
    s.covers n ↔ s.first ≤ n ∧ n ≤ s.last ∧ (n - s.first) % s.stride = 0 := by
  simp [covers, and_assoc]

end Table.Shift

/-- Shifts lead behind the capital letters of ASCII, and neither to a dotted capital I nor to a
capital sigma. -/
theorem image_lowerShifts : ∀ s ∈ Table.lowerShifts, 97 ≤ (s.first : Int) + s.offset ∧
    ∀ n ∈ [0x130, 0x3A3], (s.last : Int) + s.offset < n ∨ (n : Int) < s.first + s.offset := by
  decide +kernel

theorem apart_lowerShifts : ∀ s ∈ Table.lowerShifts,
    ∀ s' ∈ Table.lowerShifts.filter
        (·.meets ((s.first : Int) + s.offset).toNat ((s.last : Int) + s.offset).toNat),
      s'.stride = 2 ∧ (s.stride = 2 ∨ s.first = s.last) ∧
        (((s.first : Int) + s.offset).toNat + s'.first) % 2 = 1 := by
  decide +kernel

theorem shifted?_lowerShifts {n m : Nat} (h : Table.shifted? Table.lowerShifts n = some m) :
    97 ≤ m ∧ m ≠ 0x130 ∧ m ≠ 0x3A3 ∧ Table.shifted? Table.lowerShifts m = none := by
  obtain ⟨s, hs, rfl⟩ := Option.map_eq_some_iff.mp h
  have hmem := List.mem_of_find?_eq_some hs
  obtain ⟨hlow, hother⟩ := image_lowerShifts s hmem
  have hcovers := List.find?_some hs
  obtain ⟨hfirst, hlast, hstride⟩ := Table.Shift.covers_iff.mp hcovers
  have hI := hother 0x130 (by simp)
  have hsigma := hother 0x3A3 (by simp)
  refine ⟨by omega, by omega, by omega, ?_⟩
  rw [Table.shifted?, Option.map_eq_none_iff, List.find?_eq_none]
  intro s' hs' hcovers'
  obtain ⟨hfirst', hlast', hstride'⟩ := Table.Shift.covers_iff.mp hcovers'
  have hmeets : s'.meets ((s.first : Int) + s.offset).toNat ((s.last : Int) + s.offset).toNat := by
    simp only [Table.Shift.meets, Bool.and_eq_true, Nat.ble_eq]
    omega
  obtain ⟨htwo', htwo | hone, hodd⟩ :=
    apart_lowerShifts s hmem s' (List.mem_filter.mpr ⟨hs', hmeets⟩)
  · rw [htwo] at hstride
    rw [htwo'] at hstride'
    omega
  · rw [htwo'] at hstride'
    omega

/-- Lower-casing leaves the character alone, wherever it stands. -/
def IsLower (c : Char) : Prop := c ≠ 'Σ' ∧ lowerChar c = [c]

instance : DecidablePred IsLower := fun c =>
  inferInstanceAs (Decidable (c ≠ 'Σ' ∧ lowerChar c = [c]))

theorem isLower_ascii {c : Char} (hc : c.toNat < 0x80) (hlower : c.toLower = c) : IsLower c := by
  refine ⟨?_, by rw [lowerChar, if_pos hc, hlower]⟩
  rintro rfl
  exact absurd hc (by decide)

theorem toLower_of_not_capital {c : Char} (h : ¬ (65 ≤ c.toNat ∧ c.toNat ≤ 90)) : c.toLower = c :=
  (toLower_cases c).resolve_right fun hc => h ⟨hc.1, hc.2.1⟩

theorem isLower_toLower {c : Char} (hc : c.toNat < 0x80) : IsLower c.toLower := by
  rcases toLower_cases c with hsame | ⟨hle, hge, hshift⟩
  · rw [hsame]
    exact isLower_ascii hc hsame
  · exact isLower_ascii (by omega) (toLower_of_not_capital (by omega))

theorem isLower_of_shifted?_eq_none {c : Char} (hc : ¬ c.toNat < 0x80) (hsigma : c.toNat ≠ 0x3A3)
    (hI : c.toNat ≠ 0x130) (h : Table.shifted? Table.lowerShifts c.toNat = none) : IsLower c := by
  have hne : c ≠ '\u0130' := fun heq => hI (congrArg Char.toNat heq)
  refine ⟨fun heq => hsigma (congrArg Char.toNat heq), ?_⟩
  rw [lowerChar, if_neg hc, if_neg hne, h]
  rfl

theorem isLower_of_shifted? {n m : Nat} (h : Table.shifted? Table.lowerShifts n = some m) :
    IsLower (Char.ofNat m) := by
  obtain ⟨hlow, hI, hsigma, hnone⟩ := shifted?_lowerShifts h
  by_cases hvalid : m.isValidChar
  · have hcode : (Char.ofNat m).toNat = m := by simp [Char.ofNat, hvalid]
    by_cases hascii : m < 0x80
    · exact isLower_ascii (by omega) (toLower_of_not_capital (by omega))
    · exact isLower_of_shifted?_eq_none (by omega) (by omega) (by omega) (by rwa [hcode])
  · rw [Char.ofNat, dif_neg hvalid]
    decide

theorem isLower_of_mem_lowerChar {c d : Char} (hc : c ≠ 'Σ') (hd : d ∈ lowerChar c) :
    IsLower d := by
  unfold lowerChar at hd
  split at hd
  · rename_i hascii
    rw [List.mem_singleton.mp hd]
    exact isLower_toLower hascii
  · rename_i hascii
    split at hd
    · simp only [List.mem_cons, List.not_mem_nil, or_false] at hd
      rcases hd with rfl | rfl <;> decide
    · rename_i hI
      have hcode : ∀ d : Char, c ≠ d → c.toNat ≠ d.toNat := fun d hne heq =>
        hne (Char.ext (UInt32.toNat_inj.mp heq))
      cases hs : Table.shifted? Table.lowerShifts c.toNat with
      | none =>
        rw [hs, Option.map_none, Option.getD_none, List.mem_singleton] at hd
        rw [hd]
        exact isLower_of_shifted?_eq_none hascii (hcode 'Σ' hc) (hcode '\u0130' hI) hs
      | some m =>
        rw [hs, Option.map_some, Option.getD_some, List.mem_singleton] at hd
        rw [hd]
        exact isLower_of_shifted? hs

theorem isLower_of_mem_lowerBetween {before t : Text} {c d : Char}
    (hd : d ∈ lowerBetween before c t) : IsLower d := by
  unfold lowerBetween at hd
  split at hd
  · rw [List.mem_singleton.mp hd]
    split <;> decide
  · rename_i hc
    exact isLower_of_mem_lowerChar hc hd

theorem isLower_of_mem_lowerBehind {before t : Text} {d : Char} (h : d ∈ lowerBehind before t) :
    IsLower d := by
  induction t generalizing before with
  | nil => cases h
  | cons c t ih =>
    rw [lowerBehind_cons, List.mem_append] at h
    exact h.elim isLower_of_mem_lowerBetween ih

theorem lowerBehind_of_isLower {t : Text} (h : ∀ c ∈ t, IsLower c) (before : Text) :
    lowerBehind before t = t := by
  induction t generalizing before with
  | nil => rfl
  | cons c t ih =>
    obtain ⟨hsigma, hc⟩ := h c (by simp)
    rw [lowerBehind_cons, lowerBetween, if_neg hsigma, hc,
      ih fun c hmem => h c (List.mem_cons_of_mem _ hmem)]
    rfl

theorem lower_of_isLower {t : Text} (h : ∀ c ∈ t, IsLower c) : lower t = t :=
  lowerBehind_of_isLower h []

theorem lowerBehind_eq_nil_iff {before t : Text} : lowerBehind before t = [] ↔ t = [] := by
  cases t with
  | nil => simp [lowerBehind]
  | cons c t => simp [lowerBehind_cons, lowerBetween_ne_nil]

@[simp] theorem lower_eq_nil_iff {t : Text} : lower t = [] ↔ t = [] := lowerBehind_eq_nil_iff

@[simp] theorem isAllBlank_lower (t : Text) : (lower t).isAllBlank = t.isAllBlank := by
  suffices h : ∀ before, (lowerBehind before t).isAllBlank = t.isAllBlank from h []
  induction t with
  | nil => exact fun _ => rfl
  | cons c t ih =>
    intro before
    rw [lowerBehind_cons, isAllBlank_append, ih, isAllBlank_cons]
    congr 1
    cases hc : isBlank c with
    | true => simp [lowerBetween_of_isBlank hc, hc]
    | false =>
      obtain ⟨d, rest, hd⟩ := List.exists_cons_of_ne_nil (lowerBetween_ne_nil before c t)
      have hmem : d ∈ lowerBetween before c t := by simp [hd]
      have hblank := isBlank_of_mem_lowerBetween hc hmem
      simp [hd, hblank]

end Masthead.Text
