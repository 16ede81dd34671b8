import Masthead.Proofs.Respelling

namespace Masthead
open Text

theorem Lines.ofText_cons {c : Char} (hc : isLineBreak c = false) (t : Text) :
    ofText (c :: t) = (ofText t).prepend c := by
  simp only [isLineBreak, Bool.or_eq_false_iff, beq_eq_false_iff_ne] at hc
  rw [ofText]
  · rintro s rfl
    exact absurd rfl hc.1
  · rintro rfl
    exact absurd rfl hc.1
  · rintro rfl
    exact absurd rfl hc.2

namespace LineEnding

variable {e : LineEnding} {c : Char} {s t : Text}

theorem tally_cons (hc : isLineBreak c = false) (t : Text) : tally (c :: t) = tally t := by
  simp only [isLineBreak, Bool.or_eq_false_iff, beq_eq_false_iff_ne] at hc
  rw [tally]
  · rintro s rfl
    exact absurd rfl hc.1
  · rintro rfl
    exact absurd rfl hc.1
  · rintro rfl
    exact absurd rfl hc.2

theorem tally_cr_cons (h : t.head? ≠ some '\n') :
    tally ('\r' :: t) = ((tally t).1, (tally t).2.1, (tally t).2.2 + 1) := by
  rw [tally]
  rintro s rfl
  simp at h

theorem dominant_eq (t : Text) :
    dominant t = if (tally t).1 = 0 ∧ (tally t).2.1 = 0 ∧ (tally t).2.2 = 0 then lf
      else if (tally t).2.1 ≤ (tally t).1 ∧ (tally t).2.2 ≤ (tally t).1 then crlf
      else if (tally t).2.2 ≤ (tally t).2.1 then lf else cr := rfl

/-- The line endings of a text, in order. -/
def endings (t : Text) : List LineEnding := (Lines.ofText t).ended.map (·.2)

@[simp] theorem endings_nil : endings [] = [] := rfl

@[simp] theorem endings_crlf_cons (t : Text) :
    endings ('\r' :: '\n' :: t) = crlf :: endings t := rfl

@[simp] theorem endings_lf_cons (t : Text) : endings ('\n' :: t) = lf :: endings t := rfl

theorem endings_cr_cons (h : t.head? ≠ some '\n') : endings ('\r' :: t) = cr :: endings t := by
  unfold endings
  rw [Lines.ofText]
  · rfl
  · rintro s rfl
    simp at h

theorem endings_cons (hc : isLineBreak c = false) (t : Text) : endings (c :: t) = endings t := by
  unfold endings
  rw [Lines.ofText_cons hc]
  unfold Lines.prepend
  split <;> simp_all

theorem endings_induction {motive : Text → Prop} (nil : motive [])
    (crlf : ∀ t, motive t → motive ('\r' :: '\n' :: t))
    (cr : ∀ t, t.head? ≠ some '\n' → motive t → motive ('\r' :: t))
    (lf : ∀ t, motive t → motive ('\n' :: t))
    (cons : ∀ c t, isLineBreak c = false → motive t → motive (c :: t)) (t : Text) : motive t := by
  fun_induction tally t with
  | case1 => exact nil
  | case2 t _ _ _ _ ih => exact crlf t ih
  | case3 t hne _ _ _ _ ih => exact cr t (by simpa [List.head?_eq_some_iff] using hne) ih
  | case4 t _ _ _ _ ih => exact lf t ih
  | case5 c t _ hcr hlf ih =>
    exact cons c t (by simpa [isLineBreak] using ⟨hcr, hlf⟩) ih

theorem ending_induction {motive : Text → Prop} (nil : motive [])
    (ending : ∀ (e : LineEnding) (t : Text), (e = LineEnding.cr → t.head? ≠ some '\n') → motive t →
      motive (e.text ++ t))
    (cons : ∀ c t, isLineBreak c = false → motive t → motive (c :: t)) (t : Text) : motive t := by
  induction t using endings_induction with
  | nil => exact nil
  | crlf t ih => exact ending .crlf t nofun ih
  | cr t hwhole ih => exact ending .cr t (fun _ => hwhole) ih
  | lf t ih => exact ending .lf t nofun ih
  | cons c t hc ih => exact cons c t hc ih

theorem tally_eq_count (t : Text) :
    tally t = ((endings t).count crlf, (endings t).count lf, (endings t).count cr) := by
  induction t using endings_induction with
  | nil => rfl
  | crlf t ih => simp [tally, ih]
  | cr t h ih => simp [tally_cr_cons h, endings_cr_cons h, ih]
  | lf t ih => simp [tally, ih]
  | cons c t hc ih => rw [tally_cons hc, endings_cons hc, ih]

theorem dominant_of_endings_eq_nil (h : endings t = []) : dominant t = lf := by
  simp [dominant_eq, tally_eq_count, h]

theorem dominant_of_endings (h : ∀ e' ∈ endings t, e' = e) (hne : endings t ≠ []) :
    dominant t = e := by
  obtain ⟨n, hn⟩ : ∃ n, endings t = List.replicate (n + 1) e := by
    obtain ⟨n, hn⟩ := Nat.exists_eq_succ_of_ne_zero (mt List.length_eq_zero_iff.mp hne)
    exact ⟨n, List.eq_replicate_iff.mpr ⟨hn, h⟩⟩
  rw [dominant_eq, tally_eq_count, hn]
  cases e <;> simp [List.count_replicate]

theorem endings_of_cr_notMem (h : '\r' ∉ t) : ∀ e ∈ endings t, e = lf := by
  induction t using endings_induction with
  | nil => simp
  | crlf t => simp at h
  | cr t => simp at h
  | lf t ih => simpa using ih (by simpa using h)
  | cons c t hc ih =>
    rw [endings_cons hc]
    exact ih fun hm => h (List.mem_cons_of_mem _ hm)

theorem endings_of_lf_notMem (h : '\n' ∉ t) : ∀ e ∈ endings t, e = cr := by
  induction t using endings_induction with
  | nil => simp
  | crlf t => simp at h
  | cr t hne ih => simpa [endings_cr_cons hne] using ih (by simpa using h)
  | lf t => simp at h
  | cons c t hc ih =>
    rw [endings_cons hc]
    exact ih fun hm => h (List.mem_cons_of_mem _ hm)

theorem mem_endings_of_cr_mem (h : '\r' ∈ t) : crlf ∈ endings t ∨ cr ∈ endings t := by
  induction t using endings_induction with
  | nil => simp at h
  | crlf t => simp
  | cr t hne ih => simp [endings_cr_cons hne]
  | lf t ih => simpa using ih (by simpa using h)
  | cons c t hc ih =>
    rw [endings_cons hc]
    refine ih ((List.mem_cons.mp h).resolve_left ?_)
    rintro rfl
    simp [isLineBreak] at hc

theorem mem_endings_of_lf_mem (h : '\n' ∈ t) : crlf ∈ endings t ∨ lf ∈ endings t := by
  induction t using endings_induction with
  | nil => simp at h
  | crlf t => simp
  | cr t hne ih => simpa [endings_cr_cons hne] using ih (by simpa using h)
  | lf t ih => simp
  | cons c t hc ih =>
    rw [endings_cons hc]
    refine ih ((List.mem_cons.mp h).resolve_left ?_)
    rintro rfl
    simp [isLineBreak] at hc

theorem dominant_of_cr_notMem (h : '\r' ∉ t) : dominant t = lf := by
  by_cases hne : endings t = []
  · exact dominant_of_endings_eq_nil hne
  · exact dominant_of_endings (endings_of_cr_notMem h) hne

theorem dominant_of_lf_notMem (h : '\n' ∉ t) (hcr : '\r' ∈ t) : dominant t = cr := by
  refine dominant_of_endings (endings_of_lf_notMem h) fun hnil => ?_
  simpa [hnil] using mem_endings_of_cr_mem hcr

theorem tally_crlf_respell_append (h : '\r' ∉ s) (t : Text) :
    tally (crlf.respell s ++ t) = ((tally t).1 + s.count '\n', (tally t).2) := by
  induction s, h using respell_induction with
  | nil => rfl
  | lf s _ ih => simp [LineEnding.text, tally, ih, Nat.add_assoc]
  | cons c s hc _ ih =>
    have hne : c ≠ '\n' := by
      rintro rfl
      simp [isLineBreak] at hc
    rw [respell_cons hc, List.cons_append, tally_cons hc, ih, List.count_cons_of_ne hne]

theorem cr_notMem_respell_lf (h : '\r' ∉ s) : '\r' ∉ lf.respell s := by rwa [respell_lf h]

theorem cr_mem_respell_cr (h : '\r' ∉ s) (hlf : '\n' ∈ s) : '\r' ∈ cr.respell s := by
  induction s, h using respell_induction with
  | nil => simp at hlf
  | lf s _ _ => simp [LineEnding.text]
  | cons c s hc _ ih =>
    rw [respell_cons hc]
    have hne : '\n' ≠ c := by
      rintro rfl
      simp [isLineBreak] at hc
    exact List.mem_cons_of_mem _ (ih (by simpa [hne] using hlf))

theorem dominant_respell (hs : '\r' ∉ s) (hlf : '\n' ∈ s) : dominant (e.respell s) = e := by
  cases e with
  | crlf =>
    have htally := tally_crlf_respell_append hs []
    have hpos := List.count_pos_iff.mpr hlf
    rw [List.append_nil] at htally
    simp only [dominant_eq, htally, tally]
    rw [if_neg (by omega), if_pos (by omega)]
  | lf => exact dominant_of_cr_notMem (cr_notMem_respell_lf hs)
  | cr => exact dominant_of_lf_notMem (lf_notMem_respell_cr hs) (cr_mem_respell_cr hs hlf)

/-- All line endings of the text are of one style. -/
def Uniform (t : Text) : Prop := ∃ e, ∀ e' ∈ endings t, e' = e

theorem count_endings_of_suffix (hs : ∀ e ∈ endings s, e = crlf) (ht : t <:+ s) :
    (endings t).count lf ≤ 1 ∧ (endings t).count cr = 0 := by
  have hself : ∀ s : Text, (∀ e ∈ endings s, e = crlf) →
      (endings s).count lf = 0 ∧ (endings s).count cr = 0 := by
    intro s hs
    exact ⟨List.count_eq_zero.mpr fun hm => by simpa using hs _ hm,
      List.count_eq_zero.mpr fun hm => by simpa using hs _ hm⟩
  induction s using endings_induction generalizing t with
  | nil => simp [List.suffix_nil.mp ht]
  | crlf s ih =>
    have hrest : ∀ e ∈ endings s, e = crlf := fun e he => hs e (by simp [he])
    rcases List.suffix_cons_iff.mp ht with rfl | ht
    · simp [hself s hrest]
    · rcases List.suffix_cons_iff.mp ht with rfl | ht
      · simp [hself s hrest]
      · exact ih hrest ht
  | cr s hne => simpa [endings_cr_cons hne] using hs cr
  | lf s => simpa using hs lf
  | cons c s hc ih =>
    rw [endings_cons hc] at hs
    rcases List.suffix_cons_iff.mp ht with rfl | ht
    · rw [endings_cons hc]
      exact ih hs List.suffix_rfl
    · exact ih hs ht

/-- The ending that dominates a text of one style dominates the rest of that text behind a respelled
text. -/
theorem dominant_respell_append {u : Text} (hu : Uniform u) (ht : t <:+ u) (hs : '\r' ∉ s)
    (hlf : '\n' ∈ s) : dominant ((dominant u).respell s ++ t) = dominant u := by
  obtain ⟨e, he⟩ := hu
  by_cases hcr : '\r' ∈ u
  · have hne : endings u ≠ [] := by
      intro hnil
      simpa [hnil] using mem_endings_of_cr_mem hcr
    rw [dominant_of_endings he hne]
    cases e with
    | crlf =>
      obtain ⟨hlfs, hcrs⟩ := count_endings_of_suffix he ht
      have hpos := List.count_pos_iff.mpr hlf
      rw [dominant_eq, tally_crlf_respell_append hs, tally_eq_count]
      dsimp only
      rw [if_neg (by omega), if_pos (by omega)]
    | lf => rcases mem_endings_of_cr_mem hcr with hm | hm <;> cases he _ hm
    | cr =>
      have hu : '\n' ∉ u := by
        intro hm
        rcases mem_endings_of_lf_mem hm with hm | hm <;> cases he _ hm
      refine dominant_of_lf_notMem ?_ (List.mem_append_left _ (cr_mem_respell_cr hs hlf))
      rw [List.mem_append, not_or]
      exact ⟨lf_notMem_respell_cr hs, fun hm => hu (ht.subset hm)⟩
  · rw [dominant_of_cr_notMem hcr]
    refine dominant_of_cr_notMem ?_
    rw [List.mem_append, not_or]
    exact ⟨cr_notMem_respell_lf hs, fun hm => hcr (ht.subset hm)⟩

theorem lf_notMem_of_dominant_eq_cr (h : Uniform t) (hd : dominant t = cr) : '\n' ∉ t := by
  obtain ⟨e, he⟩ := h
  intro hm
  have hne : endings t ≠ [] := by
    intro hnil
    simpa [hnil] using mem_endings_of_lf_mem hm
  rw [dominant_of_endings he hne] at hd
  subst hd
  rcases mem_endings_of_lf_mem hm with hm | hm <;> cases he _ hm

end LineEnding
end Masthead
