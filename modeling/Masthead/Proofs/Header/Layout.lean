import Masthead.Proofs.Comment.Front
import Masthead.Proofs.Comment.LastLine
import Masthead.Proofs.Comment.Respelling
import Masthead.Proofs.Header.Lines

namespace Masthead.Header
open Text LineEnding Comment

variable {g : Grammar} {lines : List Text} {e : LineEnding}

/-- The last line of a header is blank. -/
def endsBlank (lines : List Text) : Bool := lines.getLast?.any isAllBlank

/-- A header that is nothing but comments, is not blank and has no line break in a line. -/
structure Proper (g : Grammar) (lines : List Text) : Prop where
  complete : g.isComplete (linesText .lf lines)
  notBlank : (linesText .lf lines).isAllBlank = false
  unbroken : Unbroken lines

theorem exists_linesText_eq (e : LineEnding) (hne : lines ≠ []) :
    ∃ front last, linesText e lines = front ++ last ++ e.text ∧ last ∈ lines ∧
      endsBlank lines = last.isAllBlank ∧ (front = [] ∨ e.text <:+ front) := by
  obtain ⟨init, last, rfl⟩ := (List.eq_nil_or_concat' lines).resolve_left hne
  by_cases hinit : init = []
  · exact ⟨[], last, by simp [hinit], by simp, by simp [endsBlank], .inl rfl⟩
  · obtain ⟨above, habove⟩ := exists_linesText_eq_append e init
    exact ⟨_, last, by rw [linesText_concat e hinit, ← List.append_assoc], by simp,
      by simp [endsBlank], .inr ⟨above, habove.symm⟩⟩

theorem Unbroken.endsBlank_of_suffix (h : Unbroken lines) (hne : lines ≠ [])
    (hs : e.text ++ e.text <:+ linesText e lines) : endsBlank lines := by
  obtain ⟨front, last, htext, hmem, hends, -⟩ := exists_linesText_eq e hne
  obtain ⟨above, habove⟩ := hs
  rw [htext, ← List.append_assoc] at habove
  have hcut := List.append_cancel_right habove
  obtain ⟨c, hc, hbreak⟩ := e.exists_getLast?_text
  by_cases hlast : last = []
  · simp [hends, hlast]
  · have hlastc : last.getLast? = some c := by
      rw [← List.getLast?_append_of_ne_nil front hlast, ← hcut,
        List.getLast?_append_of_ne_nil _ e.text_ne_nil, hc]
    simp [h last hmem c (List.mem_of_getLast? hlastc)] at hbreak

theorem Unbroken.layOut_linesText (h : Unbroken lines) (g : Grammar) (e : LineEnding)
    (following : Text) :
    layOut g (linesText e lines) following =
      if e.text.isPrefixOf following || (e.text ++ e.text).isSuffixOf (linesText e lines) then
        .ok (linesText e lines)
      else (g.leading following).map fun comment =>
        if comment = [] then linesText e lines else linesText e lines ++ e.text := by
  rw [layOut, h.dominant_linesText, h.replaceAll_linesText]

theorem Unbroken.layOut_cases (h : Unbroken lines) (hne : lines ≠ []) {following written : Text}
    (hout : layOut g (linesText e lines) following = .ok written) :
    written = linesText e lines ∧
      (e.text <+: following ∨ endsBlank lines ∨ g.leading following = .ok []) ∨
    written = linesText e lines ++ e.text ∧ ¬ e.text <+: following ∧
      ∃ comment, g.leading following = .ok comment ∧ comment ≠ [] := by
  rw [h.layOut_linesText] at hout
  split at hout
  · rename_i hsep
    refine .inl ⟨by simpa using hout.symm, ?_⟩
    rw [Bool.or_eq_true, List.isPrefixOf_iff_prefix, List.isSuffixOf_iff_suffix] at hsep
    exact hsep.imp_right fun hs => .inl (h.endsBlank_of_suffix hne hs)
  · rename_i hsep
    rw [Bool.or_eq_true, List.isPrefixOf_iff_prefix, not_or] at hsep
    cases hc : g.leading following with
    | error cause => simp [hc, Except.map] at hout
    | ok comment =>
      simp only [hc, Except.map, Except.ok.injEq] at hout
      split at hout
      · rename_i hnil
        exact .inl ⟨hout.symm, .inr (.inr (by rw [hnil]))⟩
      · rename_i hcomment
        exact .inr ⟨hout.symm, hsep.1, comment, rfl, hcomment⟩

/-- The text behind a header does not read as a part of it. -/
def Apart (g : Grammar) (e : LineEnding) (lines : List Text) (following : Text) : Prop :=
  e.text <+: following ∨ endsBlank lines ∨ g.leading following = .ok []

theorem Unbroken.apart_of_layOut (h : Unbroken lines) (hne : lines ≠ []) {following written : Text}
    (hout : layOut g (linesText e lines) following = .ok written) :
    ∃ gap : Text, (gap = [] ∨ gap = e.text) ∧ written = linesText e lines ++ gap ∧
      Apart g e lines (gap ++ following) := by
  rcases h.layOut_cases hne hout with ⟨rfl, hapart⟩ | ⟨rfl, -, -⟩
  · exact ⟨[], .inl rfl, by simp, hapart⟩
  · exact ⟨e.text, .inr rfl, rfl, .inl (List.prefix_append _ _)⟩

/-- How the text of a header is scanned: up to the end of the text one line ending is missing to a
blank line, or none if the last line is blank. -/
structure Scanned (g : Grammar) (e : LineEnding) (lines : List Text) (pieces : List Piece)
    (blanks : Text) : Prop extends CompleteScan g (linesText e lines) pieces blanks where
  missing : takeBlanks 2 blanks = (blanks, [], if endsBlank lines then 0 else 1)
  ending : e.text <:+ blanks

namespace Proper

theorem ne_nil (h : Proper g lines) : lines ≠ [] := by
  rintro rfl
  simpa using h.notBlank

theorem leading_lf (h : Proper g lines) :
    g.leading (linesText .lf lines) = .ok (linesText .lf lines) := by
  have := h.complete
  unfold Grammar.isComplete at this
  split at this
  · rename_i comment hc
    rw [hc, show comment = linesText .lf lines by simpa using this]
  · simp at this

theorem cr_notMem_blanks (h : Proper g lines) {pieces : List Piece} {blanks : Text}
    (hscan : CompleteScan g (linesText .lf lines) pieces blanks) : '\r' ∉ blanks := by
  have hcr := h.unbroken.cr_notMem_linesText_lf
  rw [hscan.text, List.mem_append, not_or] at hcr
  exact hcr.2

theorem lf_mem_blanks_iff (h : Proper g lines) (hg : g.ClosesPlainly) {pieces : List Piece}
    {blanks : Text} (hscan : CompleteScan g (linesText .lf lines) pieces (blanks ++ ['\n'])) :
    '\n' ∈ blanks ↔ endsBlank lines := by
  obtain ⟨front, last, htext, hmem, hends, hfront⟩ := exists_linesText_eq .lf h.ne_nil
  have hblank := h.notBlank
  simp only [LineEnding.text] at htext hfront
  rw [htext] at hscan hblank
  rw [hends]
  refine hscan.lf_mem_blanks_iff hg ?_ (h.unbroken last hmem) (by simpa [isBlank] using hblank)
  refine hfront.imp_right ?_
  rintro ⟨above, rfl⟩
  simp

theorem exists_scanned_lf (h : Proper g lines) (hg : g.ClosesPlainly) :
    ∃ pieces blanks, Scanned g .lf lines pieces blanks := by
  obtain ⟨front, hends⟩ := exists_linesText_eq_append .lf lines
  obtain ⟨pieces, blanks, hscan⟩ := exists_completeScan h.leading_lf (linesText_ne_nil _ _)
  have hlast : blanks.getLast? = some '\n' :=
    hscan.getLast?_blanks hg.closesInLine (by simp [hends, LineEnding.text]) rfl
  obtain ⟨blanks, rfl⟩ := List.getLast?_eq_some_iff.mp hlast
  obtain ⟨missing, hread⟩ := hscan.read
  have hcount := missing_add_count (h.cr_notMem_blanks hscan) hread
  have hiff := h.lf_mem_blanks_iff hg hscan
  rw [← List.count_pos_iff] at hiff
  rw [List.count_append, List.count_singleton_self] at hcount
  have hmissing : missing = if endsBlank lines then 0 else 1 := by
    split <;> rename_i hb
    · have := hiff.mpr hb
      omega
    · have := mt hiff.mp hb
      omega
  exact ⟨pieces, blanks ++ ['\n'],
    { hscan with missing := hmissing ▸ hread, ending := ⟨blanks, rfl⟩ }⟩

theorem exists_scanned (h : Proper g lines) (hg : g.ClosesPlainly) (e : LineEnding) :
    ∃ pieces blanks, Scanned g e lines pieces blanks := by
  obtain ⟨pieces, blanks, hscan⟩ := h.exists_scanned_lf hg
  have hblanks := h.cr_notMem_blanks hscan.toCompleteScan
  have hrespell :=
    hscan.toCompleteScan.respell hg.closesInLine h.unbroken.cr_notMem_linesText_lf e
  rw [← h.unbroken.linesText_eq_respell e] at hrespell
  refine ⟨_, _, { hrespell with missing := ?_, ending := ?_ }⟩
  · rw [takeBlanks_respell 2 hblanks, hscan.missing]
    rfl
  · obtain ⟨front, hfront⟩ := hscan.ending
    rw [← hfront, List.mem_append, not_or] at hblanks
    exact ⟨e.respell front, by rw [← hfront, respell_append hblanks.1]; simp [LineEnding.text]⟩

end Proper

theorem firstLine_text_append (e : LineEnding) (t : Text) : (e.text ++ t).firstLine = [] := by
  obtain ⟨c, rest, ht, hc, -⟩ := e.exists_text_eq_cons
  simp [firstLine, ht, hc]

namespace Scanned

variable {pieces : List Piece} {blanks following : Text}

theorem getLast?_blanks (h : Scanned g e lines pieces blanks) :
    blanks.getLast? = e.text.getLast? := by
  obtain ⟨front, rfl⟩ := h.ending
  exact List.getLast?_append_of_ne_nil _ e.text_ne_nil

theorem cutsPair_iff (h : Scanned g e lines pieces blanks) :
    CutsPair blanks following ↔ e = .cr ∧ following.head? = some '\n' := by
  rw [CutsPair, h.getLast?_blanks]
  cases e <;> simp [LineEnding.text]

theorem leading_append (h : Scanned g e lines pieces blanks) {read rest : Text} {missing : Nat}
    (hread : takeBlanks 2 (blanks ++ following) = (blanks ++ read, rest, missing))
    (hmore : missing = 0 ∨ rest = [] ∨ g.leading following = .ok []) :
    g.leading (linesText e lines ++ following) =
      .ok (linesText e lines ++ if missing = 0 ∨ rest = [] then read else dropIndent read) := by
  obtain ⟨c, hc, hbreak⟩ := e.exists_getLast?_text
  exact h.toCompleteScan.leading_append (h.getLast?_blanks.trans hc) hbreak hread hmore

/-- The gap between a header and a text that is apart ends the scan, or no comment comes next. -/
theorem stops_of_apart (hapart : Apart g e lines following) :
    (takeBlanks (if endsBlank lines then 0 else 1) following).2.2 = 0 ∨
      (takeBlanks (if endsBlank lines then 0 else 1) following).2.1 = [] ∨
      g.leading following = .ok [] := by
  split
  · exact .inl (by simp)
  · rename_i hends
    rcases hapart with ⟨rest, rfl⟩ | hb | hnil
    · have := takeBlanks_one_of_isAllBlank (t := e.text ++ rest) (by simp [firstLine_text_append])
      exact this.imp_right .inl
    · exact absurd hb hends
    · exact .inr (.inr hnil)

end Scanned

namespace Proper

variable {following : Text}

/-- What is found in front of a text that is apart, where no pair is formed. -/
theorem leading_append (h : Proper g lines) (hg : g.ClosesPlainly)
    (hcut : ¬ (e = .cr ∧ following.head? = some '\n')) (hapart : Apart g e lines following) :
    g.leading (linesText e lines ++ following) =
      .ok (linesText e lines ++ keptBlanks (if endsBlank lines then 0 else 1) following) := by
  obtain ⟨pieces, blanks, hscan⟩ := h.exists_scanned hg e
  have hread := takeBlanks_append_of_eq hscan.missing (mt hscan.cutsPair_iff.mp hcut)
  exact hscan.leading_append hread (Scanned.stops_of_apart hapart)

theorem exists_leading_append (h : Proper g lines) (hg : g.ClosesPlainly)
    (hapart : Apart g e lines following) :
    ∃ blanks : Text, blanks.isAllBlank ∧
      g.leading (linesText e lines ++ following) = .ok (linesText e lines ++ blanks) := by
  by_cases hcut : e = .cr ∧ following.head? = some '\n'
  · obtain ⟨pieces, blanks, hscan⟩ := h.exists_scanned hg e
    obtain ⟨read, rest, missing, hread, -, hblank, hle⟩ :=
      exists_takeBlanks_append hscan.missing following
    refine ⟨_, ?_, hscan.leading_append hread ?_⟩
    · split <;> simp [hblank]
    · rcases hapart with ⟨rest, rfl⟩ | hends | hnil
      · simp [hcut.1, LineEnding.text] at hcut
      · exact .inl (by simpa [hends] using hle)
      · exact .inr (.inr hnil)
  · exact ⟨_, isAllBlank_keptBlanks _ _, h.leading_append hg hcut hapart⟩

/-- Written before a text, a header is found again as the leading comment but for blanks behind it,
and the text behind the comment is the text that followed but for blanks in front of it. -/
theorem exists_leading_written (h : Proper g lines) (hg : g.ClosesPlainly) {written : Text}
    (hout : layOut g (linesText e lines) following = .ok written) :
    ∃ blanks rest : Text, blanks.isAllBlank ∧ rest.trimStart = following.trimStart ∧
      written ++ following = linesText e lines ++ blanks ++ rest ∧
      g.leading (written ++ following) = .ok (linesText e lines ++ blanks) := by
  obtain ⟨gap, hgap, rfl, hapart⟩ := h.unbroken.apart_of_layOut h.ne_nil hout
  obtain ⟨blanks, hblanks, hleading⟩ := h.exists_leading_append hg hapart
  rw [List.append_assoc]
  obtain ⟨rest, hrest⟩ := leading_isPrefix hleading
  have hgapblank : gap.isAllBlank := by rcases hgap with rfl | rfl <;> simp
  refine ⟨blanks, rest, hblanks, ?_, hrest.symm, hleading⟩
  rw [List.append_assoc] at hrest
  have hcore := congrArg trimStart (List.append_cancel_left hrest)
  rwa [trimStart_append hblanks, trimStart_append hgapblank] at hcore

end Proper

end Masthead.Header
