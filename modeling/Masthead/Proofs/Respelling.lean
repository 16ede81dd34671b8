import Masthead.LineEnding
import Masthead.Proofs.Occurrences

namespace Masthead.LineEnding
open Text

variable {e : LineEnding} {c : Char} {t : Text}

theorem replaceAll_cons (hc : isLineBreak c = false) (new t : Text) :
    replaceAll new (c :: t) = c :: replaceAll new t := by
  simp only [isLineBreak, Bool.or_eq_false_iff, beq_eq_false_iff_ne] at hc
  rw [replaceAll]
  · rintro s rfl
    exact absurd rfl hc.1
  · rintro rfl
    exact absurd rfl hc.1
  · rintro rfl
    exact absurd rfl hc.2

theorem replaceAll_unbroken_append (h : ∀ c ∈ t, isLineBreak c = false) (new s : Text) :
    replaceAll new (t ++ s) = t ++ replaceAll new s := by
  induction t with
  | nil => rfl
  | cons c t ih =>
    rw [List.cons_append, replaceAll_cons (h c (by simp)),
      ih fun d hd => h d (List.mem_cons_of_mem _ hd), List.cons_append]

theorem replaceAll_ending_append (h : e = cr → t.head? ≠ some '\n') (new : Text) :
    replaceAll new (e.text ++ t) = new ++ replaceAll new t := by
  cases e with
  | crlf => rfl
  | lf => rfl
  | cr =>
    show replaceAll new ('\r' :: t) = _
    rw [replaceAll]
    rintro s rfl
    exact h rfl rfl

/-- Writes the ending for every line ending. -/
def respell (e : LineEnding) (t : Text) : Text := replaceAll e.text t

@[simp] theorem respell_nil (e : LineEnding) : e.respell [] = [] := rfl

@[simp] theorem respell_lf_cons (e : LineEnding) (t : Text) :
    e.respell ('\n' :: t) = e.text ++ e.respell t := rfl

theorem respell_cons (hc : isLineBreak c = false) (t : Text) :
    e.respell (c :: t) = c :: e.respell t := replaceAll_cons hc e.text t

theorem eq_lf_or_isLineBreak_eq_false (h : '\r' ∉ c :: t) : c = '\n' ∨ isLineBreak c = false := by
  simp only [List.mem_cons, not_or] at h
  by_cases hc : c = '\n'
  · exact .inl hc
  · exact .inr (by simp [isLineBreak, hc, Ne.symm h.1])

theorem notMem_cons_of_isLineBreak_eq_false (hc : isLineBreak c = false) (h : '\r' ∉ t) :
    '\r' ∉ c :: t := by
  rintro hm
  rcases List.mem_cons.mp hm with rfl | hm
  · simp [isLineBreak] at hc
  · exact h hm

theorem respell_induction {motive : (t : Text) → '\r' ∉ t → Prop} (nil : motive [] (by simp))
    (lf : ∀ t (h : '\r' ∉ t), motive t h → motive ('\n' :: t) (by simpa using h))
    (cons : ∀ c t (hc : isLineBreak c = false) (h : '\r' ∉ t), motive t h →
      motive (c :: t) (notMem_cons_of_isLineBreak_eq_false hc h))
    (t : Text) (h : '\r' ∉ t) : motive t h := by
  induction t with
  | nil => exact nil
  | cons c t ih =>
    have ht : '\r' ∉ t := fun hm => h (List.mem_cons_of_mem _ hm)
    rcases eq_lf_or_isLineBreak_eq_false h with rfl | hc
    · exact lf t ht (ih ht)
    · exact cons c t hc ht (ih ht)

theorem respell_append {s : Text} (h : '\r' ∉ s) (t : Text) :
    e.respell (s ++ t) = e.respell s ++ e.respell t := by
  induction s, h using respell_induction with
  | nil => rfl
  | lf s _ ih => simp [ih]
  | cons c s hc _ ih => simp [respell_cons hc, ih]

theorem respell_eq_self (h : ∀ c ∈ t, isLineBreak c = false) : e.respell t = t := by
  simpa [respell, replaceAll] using replaceAll_unbroken_append h e.text []

theorem respell_lf (h : '\r' ∉ t) : lf.respell t = t := by
  induction t, h using respell_induction with
  | nil => rfl
  | lf t _ ih => simp [ih, LineEnding.text]
  | cons c t hc _ ih => rw [respell_cons hc, ih]

theorem lf_notMem_respell_cr (h : '\r' ∉ t) : '\n' ∉ cr.respell t := by
  induction t, h using respell_induction with
  | nil => simp
  | lf t _ ih => simpa [LineEnding.text] using ih
  | cons c t hc _ ih =>
    rw [respell_cons hc, List.mem_cons, not_or]
    refine ⟨?_, ih⟩
    rintro rfl
    simp [isLineBreak] at hc

theorem exists_text_eq_cons (e : LineEnding) :
    ∃ c rest, e.text = c :: rest ∧ isLineBreak c ∧ ∀ d ∈ rest, isLineBreak d := by
  cases e
  · exact ⟨'\r', ['\n'], rfl, rfl, by simp [isLineBreak]⟩
  · exact ⟨'\n', [], rfl, rfl, by simp⟩
  · exact ⟨'\r', [], rfl, rfl, by simp⟩

theorem isLineBreak_of_mem_text (h : c ∈ e.text) : isLineBreak c := by
  obtain ⟨d, rest, ht, hd, hrest⟩ := e.exists_text_eq_cons
  rw [ht, List.mem_cons] at h
  rcases h with rfl | h
  · exact hd
  · exact hrest c h

theorem exists_getLast?_text (e : LineEnding) : ∃ c, e.text.getLast? = some c ∧ isLineBreak c := by
  cases e
  · exact ⟨'\n', rfl, rfl⟩
  · exact ⟨'\n', rfl, rfl⟩
  · exact ⟨'\r', rfl, rfl⟩

theorem text_ne_nil (e : LineEnding) : e.text ≠ [] := by cases e <;> simp [LineEnding.text]

theorem replaceAll_text_append (new : Text) (h : '\r' ∉ t) :
    replaceAll new (e.text ++ e.respell t) = new ++ replaceAll new (e.respell t) := by
  refine replaceAll_ending_append ?_ new
  rintro rfl hhead
  exact lf_notMem_respell_cr h (List.mem_of_mem_head? hhead)

theorem replaceAll_respell (h : '\r' ∉ t) :
    replaceAll e.text (e.respell t) = e.respell t := by
  induction t, h using respell_induction with
  | nil => rfl
  | lf t h ih => rw [respell_lf_cons, replaceAll_text_append _ h, ih]
  | cons c t hc _ ih => rw [respell_cons hc, ← respell, respell_cons hc, respell, ih]

section Cuts

variable {p : Char → Bool}

theorem takeWhile_respell (hp : ∀ c, isLineBreak c → p c = false) (h : '\r' ∉ t) :
    (e.respell t).takeWhile p = t.takeWhile p := by
  obtain ⟨d, rest, ht, hd, -⟩ := e.exists_text_eq_cons
  induction t, h using respell_induction with
  | nil => rfl
  | lf t _ _ => simp [ht, hp d hd, hp '\n' rfl]
  | cons c t hc _ ih => simp [respell_cons hc, List.takeWhile_cons, ih]

theorem dropWhile_respell (hp : ∀ c, isLineBreak c → p c = false) (h : '\r' ∉ t) :
    (e.respell t).dropWhile p = e.respell (t.dropWhile p) := by
  obtain ⟨d, rest, ht, hd, -⟩ := e.exists_text_eq_cons
  induction t, h using respell_induction with
  | nil => rfl
  | lf t _ _ => simp [ht, hp d hd, hp '\n' rfl]
  | cons c t hc _ ih =>
    rw [respell_cons hc, List.dropWhile_cons, List.dropWhile_cons]
    split
    · exact ih
    · rw [respell_cons hc]

end Cuts

@[simp] theorem isAllBlank_text (e : LineEnding) : e.text.isAllBlank = true :=
  isAllBlank_iff.mpr fun _ hc => isBlank_of_isLineBreak (isLineBreak_of_mem_text hc)

@[simp] theorem isAllBlank_respell (h : '\r' ∉ t) :
    (e.respell t).isAllBlank = t.isAllBlank := by
  induction t, h using respell_induction with
  | nil => rfl
  | lf t _ ih => simp [ih, isBlank]
  | cons c t hc _ ih => simp [respell_cons hc, ih]

theorem respell_eq_nil_iff (h : '\r' ∉ t) : e.respell t = [] ↔ t = [] := by
  induction t, h using respell_induction with
  | nil => simp
  | lf t _ _ => simp [e.text_ne_nil]
  | cons c t hc _ _ => simp [respell_cons hc]

section Ends

variable {s : Text}

theorem respell_prefix_iff (hs : '\r' ∉ s) (ht : '\r' ∉ t) :
    e.respell s <+: e.respell t ↔ s <+: t := by
  obtain ⟨b, rest, htext, hb, -⟩ := e.exists_text_eq_cons
  have hbreak : ∀ {c : Char}, isLineBreak c = false → b ≠ c ∧ '\n' ≠ c := by
    rintro c hc
    constructor <;> rintro rfl
    · simp [hb] at hc
    · cases hc
  induction s, hs using respell_induction generalizing t with
  | nil => simp
  | lf s _ ih =>
    cases t, ht using respell_induction with
    | nil => simp [e.text_ne_nil]
    | lf t ht =>
      rw [respell_lf_cons, respell_lf_cons, List.prefix_append_right_inj,
        List.prefix_cons_inj]
      exact ih ht
    | cons c t hc ht =>
      rw [respell_lf_cons, respell_cons hc, htext, List.cons_append, List.cons_prefix_cons,
        List.cons_prefix_cons]
      exact iff_of_false (fun h => (hbreak hc).1 h.1) fun h => (hbreak hc).2 h.1
  | cons d s hd _ ih =>
    cases t, ht using respell_induction with
    | nil => simp [respell_cons hd]
    | lf t ht =>
      rw [respell_lf_cons, respell_cons hd, htext, List.cons_append, List.cons_prefix_cons,
        List.cons_prefix_cons]
      exact iff_of_false (fun h => (hbreak hd).1 h.1.symm) fun h => (hbreak hd).2 h.1.symm
    | cons c t hc ht =>
      rw [respell_cons hd, respell_cons hc, List.cons_prefix_cons, List.cons_prefix_cons]
      exact and_congr_right fun _ => ih ht

theorem respell_inj (hs : '\r' ∉ s) (ht : '\r' ∉ t) : e.respell s = e.respell t ↔ s = t := by
  refine ⟨fun h => ?_, congrArg _⟩
  have hst := (respell_prefix_iff (e := e) hs ht).mp (h ▸ List.prefix_refl _)
  have hts := (respell_prefix_iff (e := e) ht hs).mp (h ▸ List.prefix_refl _)
  exact hst.eq_of_length_le hts.length_le

theorem getLast?_respell_inj {c d : Char} (hc : '\r' ∉ [c]) (hd : '\r' ∉ [d])
    (h : (e.respell [c]).getLast? = (e.respell [d]).getLast?) : c = d := by
  obtain ⟨b, hlast, hb⟩ := e.exists_getLast?_text
  rcases eq_lf_or_isLineBreak_eq_false hc with rfl | hc <;>
    rcases eq_lf_or_isLineBreak_eq_false hd with rfl | hd
  · rfl
  · rw [respell_lf_cons, respell_cons hd, respell_nil, List.append_nil, hlast] at h
    simp_all
  · rw [respell_lf_cons, respell_cons hc, respell_nil, List.append_nil, hlast] at h
    simp_all
  · simpa [respell_cons hc, respell_cons hd] using h

theorem respell_suffix_iff (hs : '\r' ∉ s) (ht : '\r' ∉ t) :
    e.respell s <:+ e.respell t ↔ s <:+ t := by
  constructor
  · intro h
    induction s using List.reverseRecOn generalizing t with
    | nil => exact List.nil_suffix
    | append_singleton s c ih =>
      obtain ⟨front, hfront⟩ := h
      obtain ⟨hs, hc⟩ : '\r' ∉ s ∧ '\r' ∉ [c] := by simpa [not_or] using hs
      have hne : ∀ {d : Char}, '\r' ∉ [d] → e.respell [d] ≠ [] := fun hd =>
        mt (respell_eq_nil_iff hd).mp (List.cons_ne_nil _ _)
      rw [respell_append hs, ← List.append_assoc] at hfront
      rcases List.eq_nil_or_concat' t with rfl | ⟨t, d, rfl⟩
      · exact absurd (List.append_eq_nil_iff.mp hfront).2 (hne hc)
      · obtain ⟨hinit, hd⟩ : '\r' ∉ t ∧ '\r' ∉ [d] := by simpa [not_or] using ht
        rw [respell_append hinit] at hfront
        have hlast := congrArg List.getLast? hfront
        rw [List.getLast?_append_of_ne_nil _ (hne hc),
          List.getLast?_append_of_ne_nil _ (hne hd)] at hlast
        obtain rfl := getLast?_respell_inj hc hd hlast
        obtain ⟨above, rfl⟩ := ih hs hinit ⟨front, List.append_cancel_right hfront⟩
        exact ⟨above, (List.append_assoc _ _ _).symm⟩
  · rintro ⟨front, rfl⟩
    rw [respell_append fun hm => ht (List.mem_append_left s hm)]
    exact List.suffix_append _ _

end Ends

theorem trimStart_respell (h : '\r' ∉ t) : (e.respell t).trimStart = e.respell t.trimStart := by
  induction t, h using respell_induction with
  | nil => rfl
  | lf t _ ih =>
    have hlf : trimStart ('\n' :: t) = trimStart t :=
      trimStart_append (show isAllBlank ['\n'] from rfl) t
    rw [respell_lf_cons, trimStart_append e.isAllBlank_text, ih, hlf]
  | cons c t hc _ ih =>
    rw [respell_cons hc]
    cases hb : isBlank c with
    | true =>
      rw [show c :: e.respell t = [c] ++ e.respell t from rfl, trimStart_append (by simp [hb]), ih,
        show c :: t = [c] ++ t from rfl, trimStart_append (by simp [hb])]
    | false => rw [trimStart_cons hb, trimStart_cons hb, respell_cons hc]

section Occurrences

variable {needle : Text} (hn : ∀ c ∈ needle, isLineBreak c = false)
include hn

theorem isPrefixOf?_cons_of_isLineBreak (hne : needle ≠ []) (hc : isLineBreak c) (t : Text) :
    needle.isPrefixOf? (c :: t) = none := by
  obtain ⟨d, needle, rfl⟩ := List.exists_cons_of_ne_nil hne
  have hd : (d == c) = false := by
    rw [beq_eq_false_iff_ne]
    rintro rfl
    simp [hn d (by simp)] at hc
  simp [isPrefixOf?_cons_cons, hd]

theorem isPrefixOf?_respell (h : '\r' ∉ t) :
    needle.isPrefixOf? (e.respell t) = (needle.isPrefixOf? t).map e.respell := by
  induction needle generalizing t with
  | nil => rfl
  | cons d needle ih =>
    obtain ⟨b, rest, ht, hb, -⟩ := e.exists_text_eq_cons
    cases t, h using respell_induction with
    | nil => rfl
    | lf t _ =>
      rw [respell_lf_cons, ht, List.cons_append, isPrefixOf?_cons_of_isLineBreak hn (by simp) hb,
        isPrefixOf?_cons_of_isLineBreak hn (by simp) rfl]
      rfl
    | cons c t hc h =>
      rw [respell_cons hc, isPrefixOf?_cons_cons, isPrefixOf?_cons_cons]
      split
      · exact ih (fun c hc => hn c (by simp [hc])) h
      · rfl

theorem splitAtFirst?_text_append (hne : needle ≠ []) {breaks : Text}
    (hb : ∀ c ∈ breaks, isLineBreak c) (t : Text) :
    splitAtFirst? needle (breaks ++ t) =
      (splitAtFirst? needle t).map fun (before, rest) => (breaks ++ before, rest) := by
  induction breaks with
  | nil => simp
  | cons b breaks ih =>
    rw [List.cons_append, splitAtFirst?,
      isPrefixOf?_cons_of_isLineBreak hn hne (hb b (by simp)), ih fun c hc => hb c (by simp [hc])]
    simp [Function.comp_def]

theorem splitAtFirst?_respell (hne : needle ≠ []) (h : '\r' ∉ t) :
    splitAtFirst? needle (e.respell t) =
      (splitAtFirst? needle t).map fun (before, rest) => (e.respell before, e.respell rest) := by
  induction t, h using respell_induction with
  | nil => simp [splitAtFirst?, hne]
  | lf t _ ih =>
    rw [respell_lf_cons, splitAtFirst?_text_append hn hne fun _ => isLineBreak_of_mem_text, ih,
      show '\n' :: t = ['\n'] ++ t from rfl,
      splitAtFirst?_text_append hn hne (by simp [isLineBreak])]
    simp [Function.comp_def]
  | cons c t hc h ih =>
    have hp := isPrefixOf?_respell (e := e) hn (notMem_cons_of_isLineBreak_eq_false hc h)
    rw [respell_cons hc] at hp ⊢
    simp only [splitAtFirst?, hp]
    cases needle.isPrefixOf? (c :: t) with
    | some rest => simp
    | none =>
      rw [Option.map_none, ih]
      simp [Function.comp_def, respell_cons hc]

end Occurrences

end Masthead.LineEnding
