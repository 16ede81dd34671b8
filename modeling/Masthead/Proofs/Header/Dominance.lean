import Masthead.Proofs.EndingCount
import Masthead.Proofs.Header.Frame

/-!
# The style of a text that is given a header

A header is written in the ending that dominates the text, and the rest of the text keeps its own.
So a text of one style keeps it. In a text of several styles the comment that gives way may take
more of the dominant endings with it than the header brings, and then another ending dominates.
-/
namespace Masthead.Header
open Text LineEnding Comment

variable {e : LineEnding} {lines : List Text} {t existing front rest content : Text}

theorem endings_respell {s : Text} (h : '\r' ∉ s) :
    endings (e.respell s) = List.replicate (s.count '\n') e := by
  induction s, h using respell_induction with
  | nil => rfl
  | lf s h ih =>
    have hpair : ¬ (e = .cr ∧ (e.respell s).head? = some '\n') := by
      rintro ⟨rfl, hlf⟩
      exact lf_notMem_respell_cr h (List.mem_of_mem_head? hlf)
    rw [respell_lf_cons, endings_text_append hpair, ih, List.count_cons_self, List.replicate_succ]
  | cons c s hc h ih =>
    have hne : c ≠ '\n' := by
      rintro rfl
      simp [isLineBreak] at hc
    rw [respell_cons hc, endings_cons hc, ih, List.count_cons_of_ne hne]

/-- A header as it is written, up to its last line ending: it may have a blank line at its end. -/
def IsFront (e : LineEnding) (lines : List Text) (front : Text) : Prop :=
  front = join e.text lines ∨ front = linesText e lines

theorem IsFront.exists_respell (h : IsFront e lines front) (hlines : Unbroken lines) :
    ∃ s, '\r' ∉ s ∧ front = e.respell s := by
  have hcr := hlines.cr_notMem_linesText_lf
  have hrespell := hlines.linesText_eq_respell e
  rcases h with rfl | rfl
  · have hjoin : '\r' ∉ join LineEnding.lf.text lines := fun hm =>
      hcr (List.mem_append_left _ hm)
    refine ⟨_, hjoin, ?_⟩
    rw [linesText, linesText, respell_append hjoin] at hrespell
    exact List.append_cancel_right (hrespell.trans (by simp [LineEnding.text]))
  · exact ⟨_, hcr, hrespell⟩

theorem IsFront.endings_eq (h : IsFront e lines front) (hlines : Unbroken lines) :
    ∀ e' ∈ endings front, e' = e := by
  obtain ⟨s, hs, rfl⟩ := h.exists_respell hlines
  rw [endings_respell hs]
  exact fun e' he' => List.eq_of_mem_replicate he'

theorem IsFront.endings_append (h : IsFront e lines front) (hlines : Unbroken lines) (rest : Text) :
    endings (front ++ e.text ++ rest) = endings front ++ endings (e.text ++ rest) := by
  obtain ⟨s, hs, rfl⟩ := h.exists_respell hlines
  rw [List.append_assoc, LineEnding.endings_append]
  rintro ⟨hlast, hhead⟩
  cases e with
  | lf => exact cr_notMem_respell_lf hs (List.mem_of_getLast? hlast)
  | crlf => simp [LineEnding.text] at hhead
  | cr => simp [LineEnding.text] at hhead

/-- What becomes of the ending that dominates a text, where `existing` gives way to a header of that
ending and `rest` stays. -/
structure StyleAfter (t existing front rest content : Text) : Prop where
  /-- It dominates as before exactly if it leads among the endings written and the endings kept. -/
  kept_iff : dominant content = dominant t ↔
    (dominant t).Leads (endings front ++ endings ((dominant t).text ++ rest))
  uniform : Uniform t → dominant content = dominant t
  /-- It does if what gives way has at most as many of it as are written. -/
  enough : ¬ (dominant t = .cr ∧ rest.head? = some '\n') →
    (endings existing).count (dominant t) ≤ (endings front).length + 1 →
    dominant content = dominant t

theorem not_pair_rest (h : Uniform t) (ht : t = existing ++ rest) :
    ¬ (dominant t = .cr ∧ rest.head? = some '\n') := by
  rintro ⟨hcr, hlf⟩
  refine lf_notMem_of_dominant_eq_cr h hcr ?_
  rw [ht]
  exact List.mem_append_right _ (List.mem_of_mem_head? hlf)

theorem endings_text_append_ne_nil (e : LineEnding) (rest : Text) :
    endings (e.text ++ rest) ≠ [] := by
  have hlength := length_endings_le_append e.text rest
  rw [endings_text] at hlength
  exact List.ne_nil_of_length_pos hlength

section Rewritten

variable (ht : t = existing ++ rest) (hcut : ¬ CutsPair existing rest)
  (hfront : ∀ e ∈ endings front, e = dominant t)
  (hcontent : endings content = endings front ++ endings ((dominant t).text ++ rest))
include ht hcut hfront hcontent

theorem dominant_of_uniform (h : Uniform t) : dominant content = dominant t := by
  rw [endings_text_append (not_pair_rest h ht)] at hcontent
  obtain ⟨e, he⟩ := h
  refine dominant_of_endings ?_ (by simp [hcontent])
  simp only [hcontent, List.mem_append, List.mem_cons]
  rintro e' (hmem | rfl | hmem)
  · exact hfront e' hmem
  · rfl
  · have hmem' : e' ∈ endings t := by
      rw [ht, LineEnding.endings_append hcut]
      exact List.mem_append_right _ hmem
    rw [dominant_of_endings he (List.ne_nil_of_mem hmem'), he e' hmem']

/-- What gives way takes no more of the dominant ending with it than is written, and nothing else is
written. -/
theorem leads_of_enough (hne : endings t ≠ [])
    (hpair : ¬ (dominant t = .cr ∧ rest.head? = some '\n'))
    (hcount : (endings existing).count (dominant t) ≤ (endings front).length + 1) :
    (dominant t).Leads (endings content) := by
  have htext : endings t = endings existing ++ endings rest := by
    rw [ht, LineEnding.endings_append hcut]
  rw [hcontent, endings_text_append hpair]
  refine ((dominant_eq_iff hne).mp rfl).mono ?_ fun e' he' => ?_
  · have hall := List.eq_replicate_iff.mpr ⟨rfl, hfront⟩
    rw [htext, List.count_append, List.count_append, List.count_cons_self, hall,
      List.count_replicate_self]
    omega
  · have hzero : (endings front).count e' = 0 :=
      List.count_eq_zero.mpr fun hmem => he' (hfront e' hmem)
    rw [htext, List.count_append, List.count_append, List.count_cons_of_ne (Ne.symm he'), hzero]
    omega

theorem styleAfter : StyleAfter t existing front rest content := by
  have hne : endings content ≠ [] := by
    simp [hcontent, endings_text_append_ne_nil]
  have huniform := dominant_of_uniform ht hcut hfront hcontent
  refine ⟨?_, huniform, fun hpair hcount => ?_⟩
  · rw [dominant_eq_iff hne, hcontent]
  · by_cases hnil : endings t = []
    · exact huniform ⟨.lf, by simp [hnil]⟩
    · exact (dominant_eq_iff hne).mpr
        (leads_of_enough ht hcut hfront hcontent hnil hpair hcount)

end Rewritten

theorem Parts.not_cutsPair {r : Rule} {skipped : Text} (h : Parts r t skipped existing rest) :
    ¬ CutsPair existing rest := by
  obtain ⟨comment, hcomment, hexisting⟩ := h.existing
  split at hexisting
  · subst hexisting
    exact not_cutsPair_of_leading hcomment rfl
  · simp [hexisting, CutsPair]

theorem Parts.skipped_eq_nil {r : Rule} {skipped : Text} (h : Parts r t skipped existing rest)
    (hskip : r.skip = none) : skipped = [] := by
  simpa [hskip] using h.skipped

/-- The header that is put in place of another one is written in its own ending. -/
theorem Unbroken.isFront_of_putFor {put : Text} (hlines : Unbroken lines)
    (h : PutFor (some (linesText e lines)) existing put) (hne : linesText e lines ≠ existing) :
    ∃ front, IsFront e lines front ∧ put = front ++ e.text := by
  rcases h with ⟨heq, -⟩ | ⟨-, gap, rfl, hgap⟩
  · exact absurd heq hne
  · rw [hlines.dominant_linesText] at hgap
    rw [hlines.dominant_linesText, hlines.replaceAll_linesText]
    rcases hgap with rfl | rfl
    · exact ⟨_, .inl rfl, by simp [linesText]⟩
    · exact ⟨_, .inr rfl, rfl⟩

/-- A document that changes a text and gives it a header writes the header in the ending that
dominates the text, and whether that one still dominates depends on the endings around the cut. -/
theorem Document.exists_styleAfter {d : Document} {new : Revision} (hskip : d.rule.skip = none)
    (hheader : d.rule.header = some lines) (hlines : Unbroken lines)
    (h : d.reviseText t = .ok new) (hchange : new.action = .inserted ∨ new.action = .replaced) :
    ∃ existing front rest, Parts d.rule t [] existing rest ∧
      (new.action = .inserted ↔ existing = []) ∧ IsFront (dominant t) lines front ∧
      new.content = front ++ (dominant t).text ++ rest ∧
      StyleAfter t existing front rest new.content := by
  obtain ⟨skipped, existing, rest, put, hparts, hcontent, hput, htruth⟩ := d.exists_parts h
  obtain rfl := hparts.skipped_eq_nil hskip
  have ht : t = existing ++ rest := hparts.text
  have hchanged : new.content ≠ t := by
    intro hsame
    rcases hchange with haction | haction <;>
      simp [htruth.unchanged.mpr hsame] at haction
  rw [Rule.headerText?_of_header hheader] at hput
  have hne : linesText (dominant t) lines ≠ existing := by
    rintro heq
    rcases hput with ⟨-, rfl⟩ | ⟨hne, -⟩
    · exact hchanged (hcontent.trans hparts.text.symm)
    · exact hne heq
  obtain ⟨front, hfront, rfl⟩ := hlines.isFront_of_putFor hput hne
  have hinserted : new.action = .inserted ↔ existing = [] := by
    simpa [hheader] using htruth.inserted hchanged
  refine ⟨existing, front, rest, hparts, hinserted, hfront, hcontent,
    styleAfter ht hparts.not_cutsPair (hfront.endings_eq hlines) ?_⟩
  rw [hcontent]
  exact hfront.endings_append hlines rest

/-- A document that gives a text a header. -/
def slashedDocument (lines : List Text) : Document where
  path := Path.ofText "a.go".toList
  source := .onDisk
  rule := slashedRule (some lines) []

/-- Line feeds still dominate where as many of them are written as give way. -/
theorem exists_styleAfter_mixed :
    (slashedDocument ["// H".toList]).rule.skip = none ∧
      Unbroken ["// H".toList] ∧
      (slashedDocument ["// H".toList]).reviseText "// a\nx\r\ny\n".toList =
        .ok ⟨.replaced, "// H\nx\r\ny\n".toList⟩ ∧
      ∃ existing front rest,
        Parts (slashedDocument ["// H".toList]).rule "// a\nx\r\ny\n".toList [] existing rest ∧
        (Action.replaced = .inserted ↔ existing = []) ∧
        IsFront (dominant "// a\nx\r\ny\n".toList) ["// H".toList] front ∧
        "// H\nx\r\ny\n".toList = front ++ (dominant "// a\nx\r\ny\n".toList).text ++ rest ∧
        StyleAfter "// a\nx\r\ny\n".toList existing front rest "// H\nx\r\ny\n".toList := by
  have hlines : Unbroken ["// H".toList] := by decide
  have hrun : (slashedDocument ["// H".toList]).reviseText "// a\nx\r\ny\n".toList =
      .ok ⟨.replaced, "// H\nx\r\ny\n".toList⟩ := by cbv
  exact ⟨rfl, hlines, hrun, Document.exists_styleAfter rfl rfl hlines hrun (.inr rfl)⟩

/-- The two line feeds of a header of two lines outweigh the pair behind it, the one of a header of
one line does not. -/
theorem not_style_kept : ¬ ∀ (d : Document) (lines : List Text) (t : Text) (new : Revision),
    d.rule.skip = none → d.rule.header = some lines → d.rule.isValid → Unbroken lines →
    d.reviseText t = .ok new → (new.action = .inserted ∨ new.action = .replaced) →
    dominant new.content = dominant t := by
  intro h
  have hrun : (slashedDocument ["// H".toList]).reviseText "// a\n// b\nx\r\n".toList =
      .ok ⟨.replaced, "// H\nx\r\n".toList⟩ := by cbv
  have hkept := h (slashedDocument ["// H".toList]) _ _ _ rfl rfl (by cbv) (by decide) hrun
    (.inr rfl)
  exact absurd hkept (by decide)

end Masthead.Header
