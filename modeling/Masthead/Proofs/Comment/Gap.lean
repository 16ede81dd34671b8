import Masthead.LineEnding
import Masthead.Proofs.Blanks

namespace Masthead.Comment
open Text

@[simp] theorem takeBlanks_zero (t : Text) : takeBlanks 0 t = ([], t, 0) := by
  unfold takeBlanks
  rfl

@[simp] theorem takeBlanks_nil (breaks : Nat) : takeBlanks breaks [] = ([], [], breaks) := by
  cases breaks <;> rfl

@[simp] theorem takeBlanks_crlf (breaks : Nat) (t : Text) :
    takeBlanks (breaks + 1) ('\r' :: '\n' :: t) =
      ('\r' :: '\n' :: (takeBlanks breaks t).1, (takeBlanks breaks t).2) := rfl

@[simp] theorem takeBlanks_lf (breaks : Nat) (t : Text) :
    takeBlanks (breaks + 1) ('\n' :: t) =
      ('\n' :: (takeBlanks breaks t).1, (takeBlanks breaks t).2) := rfl

theorem takeBlanks_cons_of_not_pair {c : Char} {t : Text} (h : ∀ s, c = '\r' → t ≠ '\n' :: s)
    (breaks : Nat) :
    takeBlanks (breaks + 1) (c :: t) =
      if isBlank c then
        (c :: (takeBlanks (if isLineBreak c then breaks else breaks + 1) t).1,
          (takeBlanks (if isLineBreak c then breaks else breaks + 1) t).2)
      else ([], c :: t, breaks + 1) := by
  rw [takeBlanks.eq_def]
  split
  · contradiction
  · contradiction
  · rename_i s hbreaks heq
    obtain ⟨hc, ht⟩ := List.cons.inj heq
    exact absurd ht (h s hc)
  · rename_i hbreaks heq
    obtain ⟨rfl, rfl⟩ := List.cons.inj heq
    obtain rfl := Nat.succ.inj hbreaks
    rfl

theorem takeBlanks_cons {c : Char} (hc : isLineBreak c = false) (breaks : Nat) (t : Text) :
    takeBlanks (breaks + 1) (c :: t) =
      if isBlank c then
        (c :: (takeBlanks (breaks + 1) t).1, (takeBlanks (breaks + 1) t).2)
      else ([], c :: t, breaks + 1) := by
  have hne : ∀ s, c = '\r' → t ≠ '\n' :: s := by
    rintro s rfl
    simp [isLineBreak] at hc
  simp [takeBlanks_cons_of_not_pair hne, hc]

theorem takeBlanks_ending_append {e : LineEnding} {t : Text} (h : e = .cr → t.head? ≠ some '\n')
    (breaks : Nat) :
    takeBlanks (breaks + 1) (e.text ++ t) =
      (e.text ++ (takeBlanks breaks t).1, (takeBlanks breaks t).2) := by
  cases e with
  | crlf => exact takeBlanks_crlf breaks t
  | lf => exact takeBlanks_lf breaks t
  | cr =>
    have hpair : ∀ s, '\r' = '\r' → t ≠ '\n' :: s := by
      rintro s - rfl
      exact h rfl rfl
    exact takeBlanks_cons_of_not_pair hpair breaks

theorem isAllBlank_takeBlanks (breaks : Nat) (t : Text) : (takeBlanks breaks t).1.isAllBlank := by
  fun_induction takeBlanks breaks t with
  | case1 => rfl
  | case2 => rfl
  | case3 breaks t blanks rest missing heq ih =>
    rw [heq] at ih
    simpa [isBlank] using ih
  | case4 breaks c t hne hb blanks rest missing heq ih =>
    rw [heq] at ih
    simpa [hb] using ih
  | case5 => rfl

theorem takeBlanks_missing_le (breaks : Nat) (t : Text) : (takeBlanks breaks t).2.2 ≤ breaks := by
  fun_induction takeBlanks breaks t with
  | case1 => rfl
  | case2 => rfl
  | case3 breaks t blanks rest missing heq ih =>
    rw [heq] at ih
    exact ih.trans (Nat.le_succ _)
  | case4 breaks c t hne hb blanks rest missing heq ih =>
    rw [heq] at ih
    split at ih
    · exact ih.trans (Nat.le_succ _)
    · exact ih
  | case5 => exact le_refl _

theorem takeBlanks_rest {breaks : Nat} {t : Text} (h : (takeBlanks breaks t).2.2 ≠ 0) :
    (takeBlanks breaks t).2.1 = t.trimStart := by
  fun_induction takeBlanks breaks t with
  | case1 => exact absurd rfl h
  | case2 => rfl
  | case3 breaks t blanks rest missing heq ih =>
    rw [heq] at ih
    exact ih h
  | case4 breaks c t hne hb blanks rest missing heq ih =>
    rw [heq] at ih
    rw [trimStart, List.dropWhile_cons_of_pos hb]
    exact ih h
  | case5 breaks c t hne hb => exact (trimStart_cons (by simpa using hb) t).symm

theorem takeBlanks_getLast? {breaks : Nat} {t : Text} (hb : breaks ≠ 0)
    (h : (takeBlanks breaks t).2.2 = 0) :
    ∃ c, (takeBlanks breaks t).1.getLast? = some c ∧ isLineBreak c := by
  fun_induction takeBlanks breaks t with
  | case1 => exact absurd rfl hb
  | case2 => simp at h
  | case3 breaks t blanks rest missing heq ih =>
    by_cases hn : breaks = 0
    · subst hn
      simp only [takeBlanks_zero, Prod.mk.injEq] at heq
      obtain ⟨rfl, -, -⟩ := heq
      exact ⟨'\n', rfl, rfl⟩
    · rw [heq] at ih
      obtain ⟨c, hc, hl⟩ := ih hn h
      exact ⟨c, by simp [List.getLast?_cons, hc], hl⟩
  | case4 breaks c t hne hblank blanks rest missing heq ih =>
    rw [heq] at ih
    by_cases hn : isLineBreak c ∧ breaks = 0
    · obtain ⟨hc, rfl⟩ := hn
      simp only [hc, if_true, takeBlanks_zero, Prod.mk.injEq] at heq
      obtain ⟨rfl, -, -⟩ := heq
      exact ⟨c, rfl, hc⟩
    · have hn' : (if isLineBreak c then breaks else breaks + 1) ≠ 0 := by
        split <;> simp_all
      obtain ⟨d, hd, hl⟩ := ih hn' h
      exact ⟨d, by simp [List.getLast?_cons, hd], hl⟩
  | case5 => simp at h

theorem takeBlanks_append_of_eq {breaks missing : Nat} {blanks : Text}
    (h : takeBlanks breaks blanks = (blanks, [], missing)) {t : Text}
    (hcut : ¬ CutsPair blanks t) :
    takeBlanks breaks (blanks ++ t) =
      (blanks ++ (takeBlanks missing t).1, (takeBlanks missing t).2) := by
  fun_induction takeBlanks breaks blanks with
  | case1 blanks =>
    obtain ⟨rfl, rfl⟩ : blanks = [] ∧ 0 = missing := by simpa using h
    simp
  | case2 breaks =>
    obtain rfl : breaks + 1 = missing := by simpa using h
    simp
  | case3 breaks blanks read rest missing' heq ih =>
    obtain ⟨rfl, rfl, rfl⟩ : read = blanks ∧ rest = [] ∧ missing' = missing := by simpa using h
    simp only [List.cons_append, takeBlanks_crlf]
    rw [ih heq (not_cutsPair_cons (not_cutsPair_cons hcut))]
  | case4 breaks c blanks hne hb read rest missing' heq ih =>
    obtain ⟨rfl, rfl, rfl⟩ : read = blanks ∧ rest = [] ∧ missing' = missing := by simpa using h
    have hne' : ∀ s, c = '\r' → read ++ t ≠ '\n' :: s := by
      intro s hc hs
      cases read with
      | nil => exact hcut ⟨by simp [hc], by simp [show t = '\n' :: s from hs]⟩
      | cons d read =>
        simp only [List.cons_append, List.cons.injEq] at hs
        exact hne read hc (by rw [hs.1])
    rw [List.cons_append, takeBlanks_cons_of_not_pair hne', if_pos hb,
      ih heq (not_cutsPair_cons hcut)]
    rfl
  | case5 => simp at h

theorem takeBlanks_append_lf {breaks missing : Nat} {blanks : Text}
    (h : takeBlanks breaks blanks = (blanks, [], missing)) (hcr : blanks.getLast? = some '\r') :
    takeBlanks breaks (blanks ++ ['\n']) = (blanks ++ ['\n'], [], missing) := by
  fun_induction takeBlanks breaks blanks with
  | case1 blanks =>
    obtain rfl : blanks = [] := by simpa using (Prod.mk.inj h).1.symm
    simp at hcr
  | case2 => simp at hcr
  | case3 breaks blanks read rest missing' heq ih =>
    obtain ⟨rfl, rfl, rfl⟩ : read = blanks ∧ rest = [] ∧ missing' = missing := by simpa using h
    have hcr' : read.getLast? = some '\r' := by
      cases read with
      | nil => simp at hcr
      | cons => simpa using hcr
    simp only [List.cons_append, takeBlanks_crlf]
    rw [ih heq hcr']
  | case4 breaks c blanks hne hb read rest missing' heq ih =>
    obtain ⟨rfl, rfl, rfl⟩ : read = blanks ∧ rest = [] ∧ missing' = missing := by simpa using h
    cases read with
    | nil =>
      obtain rfl : c = '\r' := by simpa using hcr
      simp only [List.cons_append, List.nil_append, takeBlanks_crlf]
      rw [show takeBlanks breaks [] = ([], [], missing') by simpa [isLineBreak] using heq]
    | cons d read =>
      have hne' : ∀ s, c = '\r' → d :: (read ++ ['\n']) ≠ '\n' :: s := by
        intro s hc hs
        exact hne read hc (by rw [(List.cons.inj hs).1])
      rw [List.cons_append, List.cons_append, takeBlanks_cons_of_not_pair hne', if_pos hb,
        ← List.cons_append, ih heq (by simpa using hcr)]
  | case5 => simp at h

theorem exists_takeBlanks_append {breaks missing : Nat} {blanks : Text}
    (h : takeBlanks breaks blanks = (blanks, [], missing)) (t : Text) :
    ∃ read rest missing', takeBlanks breaks (blanks ++ t) = (blanks ++ read, rest, missing') ∧
      t = read ++ rest ∧ read.isAllBlank ∧ missing' ≤ missing := by
  by_cases hcut : CutsPair blanks t
  · obtain ⟨hcr, hlf⟩ := hcut
    obtain ⟨t, rfl⟩ := List.head?_eq_some_iff.mp hlf
    have hread := takeBlanks_append_of_eq (takeBlanks_append_lf h hcr) (t := t)
      (by simp [CutsPair])
    rw [List.append_assoc, List.append_assoc] at hread
    exact ⟨_, _, _, hread, by simp [takeBlanks_append],
      by simp [isAllBlank_takeBlanks, isBlank], takeBlanks_missing_le _ _⟩
  · exact ⟨_, _, _, takeBlanks_append_of_eq h hcut, (takeBlanks_append missing t).symm,
      isAllBlank_takeBlanks _ _, takeBlanks_missing_le _ _⟩

theorem takeBlanks_core (breaks : Nat) {t : Text} (h : t.trimStart = t) :
    takeBlanks breaks t = ([], t, breaks) := by
  cases breaks with
  | zero => simp
  | succ breaks =>
    cases t with
    | nil => rfl
    | cons c t =>
      have hc := isBlank_head_trimStart h
      have hne : ∀ s, c = '\r' → t ≠ '\n' :: s := by
        rintro s rfl
        simp [isBlank] at hc
      simp [takeBlanks_cons_of_not_pair hne, hc]

theorem takeBlanks_takeBlanks (breaks : Nat) (t : Text) :
    takeBlanks breaks (takeBlanks breaks t).1 =
      ((takeBlanks breaks t).1, [], (takeBlanks breaks t).2.2) := by
  fun_induction takeBlanks breaks t with
  | case1 => rfl
  | case2 => rfl
  | case3 breaks t blanks rest missing heq ih =>
    rw [heq] at ih
    simp only at ih ⊢
    rw [takeBlanks_crlf, ih]
  | case4 breaks c t hne hb blanks rest missing heq ih =>
    have ht := takeBlanks_append (if isLineBreak c then breaks else breaks + 1) t
    rw [heq] at ih ht
    simp only at ih ht ⊢
    have hne' : ∀ s, c = '\r' → blanks ≠ '\n' :: s := by
      rintro s hc rfl
      exact hne (s ++ rest) hc (by simp [← ht])
    rw [takeBlanks_cons_of_not_pair hne', if_pos hb, ih]
  | case5 => rfl

/-- A run of blanks has a blank line in it: two line endings. -/
def HoldsBlankLine (blanks : Text) : Prop := (takeBlanks 2 blanks).2.2 = 0

section Core

variable {blanks front : Text} (hb : blanks.isAllBlank)
include hb

theorem takeBlanks_eq_of_not_holdsBlankLine (h : ¬ HoldsBlankLine blanks) :
    ∃ missing, missing ≠ 0 ∧ takeBlanks 2 blanks = (blanks, [], missing) := by
  have hrest : (takeBlanks 2 blanks).2.1 = [] := by
    rw [takeBlanks_rest h, trimStart_eq_nil_iff.mpr hb]
  have hread : (takeBlanks 2 blanks).1 = blanks := by
    simpa [hrest] using takeBlanks_append 2 blanks
  exact ⟨_, h, Prod.ext hread (Prod.ext hrest rfl)⟩

variable (hf : front.trimStart = front)
include hf

omit hb in
theorem not_cutsPair_core : ¬ CutsPair blanks front := by
  rintro ⟨-, ht⟩
  obtain ⟨s, rfl⟩ := List.head?_eq_some_iff.mp ht
  have := isBlank_head_trimStart hf
  simp [isBlank] at this

theorem takeBlanks_blanks_append {breaks : Nat}
    (h : (takeBlanks breaks (blanks ++ front)).2.2 ≠ 0) :
    (takeBlanks breaks (blanks ++ front)).1 = blanks ∧
      (takeBlanks breaks (blanks ++ front)).2.1 = front := by
  have hrest : (takeBlanks breaks (blanks ++ front)).2.1 = front := by
    rw [takeBlanks_rest h, trimStart_append hb, hf]
  have hread := takeBlanks_append breaks (blanks ++ front)
  rw [hrest] at hread
  exact ⟨List.append_cancel_right hread, hrest⟩

theorem missing_eq_zero_iff :
    (takeBlanks 2 (blanks ++ front)).2.2 = 0 ↔ HoldsBlankLine blanks := by
  constructor
  · intro hm
    by_contra h
    obtain ⟨missing, hne, hread⟩ := takeBlanks_eq_of_not_holdsBlankLine hb h
    rw [takeBlanks_append_of_eq hread (not_cutsPair_core hf), takeBlanks_core missing hf] at hm
    exact hne hm
  · intro h
    by_contra hm
    have hagain := takeBlanks_takeBlanks 2 (blanks ++ front)
    rw [(takeBlanks_blanks_append hb hf hm).1] at hagain
    rw [HoldsBlankLine, hagain] at h
    exact hm h

end Core

section ReadGap

variable {blankLineEnds : Bool} {t blanks front rest : Text}

theorem readGap_of_blankLine (h : blankLineEnds ∧ (takeBlanks 2 t).2.2 = 0) :
    readGap blankLineEnds t = ⟨(takeBlanks 2 t).1, (takeBlanks 2 t).2.1, some .blankLine⟩ := by
  simp [readGap, h.1, h.2]

theorem readGap_of_no_blankLine (hb : blanks.isAllBlank) (hf : front.trimStart = front)
    (h : blankLineEnds → ¬ HoldsBlankLine blanks) :
    readGap blankLineEnds (blanks ++ front) =
      ⟨blanks, front, if front = [] then some .endOfText else none⟩ := by
  cases blankLineEnds with
  | false =>
    have hcore : (blanks ++ front).dropWhile isBlank = front := (trimStart_append hb front).trans hf
    simp [readGap, hcore, takeWhile_isBlank_append hb hf]
  | true =>
    have hm := mt (missing_eq_zero_iff hb hf).mp (h rfl)
    obtain ⟨hread, hrest⟩ := takeBlanks_blanks_append hb hf hm
    simp [readGap, hm, hread, hrest]

theorem readGap_cases (blankLineEnds : Bool) (t : Text) :
    (blankLineEnds ∧ (takeBlanks 2 t).2.2 = 0) ∨
      ∃ blanks front, t = blanks ++ front ∧ blanks.isAllBlank ∧ front.trimStart = front ∧
        (blankLineEnds → ¬ HoldsBlankLine blanks) := by
  by_cases h : blankLineEnds ∧ (takeBlanks 2 t).2.2 = 0
  · exact .inl h
  · refine .inr ⟨t.takeWhile isBlank, t.trimStart, (takeWhile_append_trimStart t).symm,
      isAllBlank_takeWhile t, trimStart_trimStart t, fun hends hline => h ⟨hends, ?_⟩⟩
    rw [← takeWhile_append_trimStart t]
    exact (missing_eq_zero_iff (isAllBlank_takeWhile t) (trimStart_trimStart t)).mpr hline

/-- A gap in front of an item is the blanks in front of the core; where blank lines end the scan, it
holds none. -/
theorem readGap_eq_none_iff :
    readGap blankLineEnds t = ⟨blanks, front, none⟩ ↔
      t = blanks ++ front ∧ blanks.isAllBlank ∧ front.trimStart = front ∧ front ≠ [] ∧
        (blankLineEnds → ¬ HoldsBlankLine blanks) := by
  constructor
  · intro h
    rcases readGap_cases blankLineEnds t with hline | ⟨blanks', front', rfl, hb, hf, hgap⟩
    · simp [readGap_of_blankLine hline] at h
    · rw [readGap_of_no_blankLine hb hf hgap] at h
      simp only [Gap.mk.injEq, ite_eq_right_iff, reduceCtorEq, imp_false] at h
      obtain ⟨rfl, rfl, hne⟩ := h
      exact ⟨rfl, hb, hf, hne, hgap⟩
  · rintro ⟨rfl, hb, hf, hne, hgap⟩
    rw [readGap_of_no_blankLine hb hf hgap, if_neg hne]

theorem readGap_eq_some_iff {stop : Stop} :
    readGap blankLineEnds t = ⟨blanks, rest, some stop⟩ ↔
      (stop = .endOfText ∧ t = blanks ∧ rest = [] ∧ t.isAllBlank ∧
        (blankLineEnds → ¬ HoldsBlankLine t)) ∨
      (stop = .blankLine ∧ blankLineEnds ∧ takeBlanks 2 t = (blanks, rest, 0)) := by
  constructor
  · intro h
    rcases readGap_cases blankLineEnds t with hline | ⟨blanks', front, rfl, hb, hf, hgap⟩
    · rw [readGap_of_blankLine hline] at h
      simp only [Gap.mk.injEq, Option.some.injEq] at h
      obtain ⟨rfl, rfl, rfl⟩ := h
      exact .inr ⟨rfl, hline.1, Prod.ext rfl (Prod.ext rfl hline.2)⟩
    · rw [readGap_of_no_blankLine hb hf hgap] at h
      simp only [Gap.mk.injEq, Option.ite_none_right_eq_some, Option.some.injEq] at h
      obtain ⟨rfl, rfl, rfl, rfl⟩ := h
      rw [List.append_nil]
      exact .inl ⟨rfl, rfl, rfl, hb, hgap⟩
  · rintro (⟨rfl, rfl, rfl, hb, hgap⟩ | ⟨rfl, hends, hread⟩)
    · conv_lhs => rw [← List.append_nil t]
      rw [readGap_of_no_blankLine hb rfl hgap, if_pos rfl]
    · rw [readGap_of_blankLine ⟨hends, by rw [hread]⟩, hread]

end ReadGap

/-- What a comment keeps of the blanks behind it, where `breaks` more line endings make a blank
line. -/
def keptBlanks (breaks : Nat) (t : Text) : Text :=
  let (read, rest, missing) := takeBlanks breaks t
  if missing = 0 ∨ rest = [] then read else dropIndent read

@[simp] theorem keptBlanks_zero (t : Text) : keptBlanks 0 t = [] := by simp [keptBlanks]

theorem isAllBlank_keptBlanks (breaks : Nat) (t : Text) : (keptBlanks breaks t).isAllBlank := by
  have := isAllBlank_takeBlanks breaks t
  unfold keptBlanks
  split
  split <;> simp_all

theorem takeBlanks_one_of_isAllBlank {t : Text} (h : t.firstLine.isAllBlank) :
    (takeBlanks 1 t).2.2 = 0 ∨ (takeBlanks 1 t).2.1 = [] := by
  induction t with
  | nil => exact .inr rfl
  | cons c t ih =>
    cases hc : isLineBreak c with
    | false =>
      simp only [firstLine, List.takeWhile_cons, hc, Bool.not_false, if_true, isAllBlank_cons,
        Bool.and_eq_true] at h
      rw [takeBlanks_cons hc, if_pos h.1]
      exact ih h.2
    | true =>
      refine .inl ?_
      rcases eq_cr_or_eq_lf hc with rfl | rfl
      · cases t with
        | nil => rfl
        | cons d t =>
          by_cases hd : d = '\n'
          · subst hd
            simp
          · simp [takeBlanks_cons_of_not_pair (c := '\r') (t := d :: t) (by simp [hd]), isBlank,
              isLineBreak]
      · simp

theorem takeBlanks_one_of_not_isAllBlank {t : Text} (h : t.firstLine.isAllBlank = false) :
    (takeBlanks 1 t).2.2 = 1 ∧ (takeBlanks 1 t).2.1 ≠ [] ∧
      ∀ c ∈ (takeBlanks 1 t).1, isIndent c := by
  induction t with
  | nil => simp [firstLine] at h
  | cons c t ih =>
    cases hc : isLineBreak c with
    | true => simp [firstLine, hc] at h
    | false =>
      simp only [firstLine, List.takeWhile_cons, hc, Bool.not_false, if_true, isAllBlank_cons] at h
      rw [takeBlanks_cons hc]
      split
      · rename_i hb
        simpa [isIndent, hb, hc] using ih (by simpa [hb, firstLine] using h)
      · simp

theorem keptBlanks_one_eq_nil_iff {t : Text} :
    keptBlanks 1 t = [] ↔ t = [] ∨ t.firstLine.isAllBlank = false := by
  cases hb : t.firstLine.isAllBlank with
  | false =>
    obtain ⟨hmissing, hrest, hindent⟩ := takeBlanks_one_of_not_isAllBlank hb
    simpa [keptBlanks, hmissing, hrest] using dropIndent_eq_nil_iff.mpr hindent
  | true =>
    have hstop := takeBlanks_one_of_isAllBlank hb
    have hkept : keptBlanks 1 t = (takeBlanks 1 t).1 := if_pos hstop
    rw [hkept]
    constructor
    · intro hnil
      have hread := takeBlanks_append 1 t
      rw [hnil, List.nil_append] at hread
      rcases hstop with hm | hrest
      · obtain ⟨c, hc, -⟩ := takeBlanks_getLast? Nat.one_ne_zero hm
        simp [hnil] at hc
      · exact .inl (hread ▸ hrest)
    · rintro (rfl | h)
      · rfl
      · simp at h

end Masthead.Comment
