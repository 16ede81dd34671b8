import Masthead.Proofs.Comment.Continuation

/-!
# Complete comments

A text that is nothing but its leading comment is scanned as pieces that close all regions, and then
blanks. In front of other text the scan reads the same pieces, and what it makes of the blanks is
decided by the gap up to the next text: `leading_append_of_gap` where the gap ends the scan, and
`leading_append_of_core` where it ends in front of text that no comment starts.
-/
namespace Masthead.Comment
open Text

variable {g : Grammar} {p q r : Place} {pieces more : List Piece}

theorem Steps.split (h : Steps g p (pieces ++ more) r) :
    ∃ q, Steps g p pieces q ∧ Steps g q more r := by
  induction pieces generalizing p with
  | nil => exact ⟨p, .nil, h⟩
  | cons piece pieces ih =>
    cases h with
    | cons step steps =>
      obtain ⟨q, first, last⟩ := ih steps
      exact ⟨q, .cons step first, last⟩

theorem closedCount?_le {depth n : Nat} (h : closedCount? depth pieces = some n) :
    n ≤ pieces.length := by
  induction pieces generalizing depth n with
  | nil =>
    simp only [closedCount?, Option.ite_none_right_eq_some, Option.some.injEq] at h
    simp [← h.2]
  | cons piece pieces ih =>
    simp only [closedCount?] at h
    split at h
    · rename_i m hm
      obtain ⟨next, -, hnext⟩ := Option.bind_eq_some_iff.mp hm
      have := ih hnext
      simp only [Option.some.injEq] at h
      simp only [List.length_cons]
      omega
    · simp only [Option.ite_none_right_eq_some, Option.some.injEq] at h
      simp [← h.2]

theorem dropIndent_isPrefix (t : Text) : dropIndent t <+: t :=
  List.rdropWhile_prefix (p := isIndent) t

theorem Halts.isPrefix {blanks : Text} {stop : Stop} (h : Halts g p blanks stop) :
    blanks <+: p.text := by
  cases stop with
  | endOfText => exact h.1 ▸ List.prefix_rfl
  | blankLine =>
    obtain ⟨-, rest, ht⟩ := h
    have := takeBlanks_append 2 p.text
    rw [ht] at this
    exact ⟨rest, this⟩
  | otherText =>
    obtain ⟨front, ht, -⟩ := h
    exact ⟨front, ht.symm⟩

theorem piecesText_of_drop {n : Nat} {opening : Piece}
    (h : pieces.drop n = opening :: more) :
    piecesText pieces = piecesText (pieces.take n) ++ opening.text ++ piecesText more := by
  conv_lhs => rw [← List.take_append_drop n pieces, h]
  simp [piecesText]

/-- What was found is the front of the text. Where a region stays open, its opening is behind it. -/
theorem Scan.found_isPrefix {s : Scan} (hsteps : Steps g p s.pieces q)
    (hhalt : Halts g q s.blanks s.stop) (n : Nat) : s.found n <+: p.text := by
  have ht := hsteps.text
  cases hdrop : s.pieces.drop n with
  | nil =>
    have htext : s.text <+: p.text := by
      rw [ht, Scan.text, List.prefix_append_right_inj]
      exact hhalt.isPrefix
    rw [Scan.found_of_length_le (List.drop_eq_nil_iff.mp hdrop)]
    split
    · exact (dropIndent_isPrefix _).trans htext
    · exact htext
  | cons opening more =>
    rw [Scan.found_of_drop hdrop]
    refine (dropIndent_isPrefix _).trans ⟨opening.item.text ++ piecesText more ++ q.text, ?_⟩
    rw [ht, piecesText_of_drop hdrop]
    simp [Piece.text]

theorem leading_isPrefix {t comment : Text} (h : g.leading t = .ok comment) : comment <+: t := by
  obtain ⟨s, q, hsteps, hhalt, rfl⟩ := leading_eq_ok_iff.mp h
  obtain ⟨n, hn⟩ := exists_closedCount?_zero s.pieces
  rw [Scan.leading_eq hsteps hn]
  split
  · exact List.nil_prefix
  · exact Scan.found_isPrefix hsteps hhalt n

/-- How a complete comment is scanned. -/
structure CompleteScan (g : Grammar) (t : Text) (pieces : List Piece) (blanks : Text) : Prop where
  text : t = piecesText pieces ++ blanks
  steps : Steps g (.start t) pieces ⟨true, 0, blanks⟩
  closed : Closed 0 pieces
  ne_nil : pieces ≠ []
  read : ∃ missing, takeBlanks 2 blanks = (blanks, [], missing)

theorem Scan.length_le_of_found {s : Scan} {n : Nat} (hsteps : Steps g p s.pieces q)
    (h : s.found n = p.text) : s.pieces.length ≤ n := by
  rw [← List.drop_eq_nil_iff]
  cases hdrop : s.pieces.drop n with
  | nil => rfl
  | cons opening more =>
    exfalso
    have hitem : opening.item.text ≠ [] := by
      obtain ⟨q', -, hlast⟩ := Steps.split (List.take_append_drop n s.pieces ▸ hsteps)
      rw [hdrop] at hlast
      cases hlast with
      | cons step _ => exact (Grammar.readItem_eq_item step.item).2
    have hle := (dropIndent_isPrefix (piecesText (s.pieces.take n) ++ opening.blanks)).length_le
    rw [← Scan.found_of_drop hdrop, h, hsteps.text, piecesText_of_drop hdrop] at hle
    have := List.length_pos_iff.mpr hitem
    simp only [Piece.text, List.length_append] at hle
    omega

theorem Halts.read_of_eq {blanks above : Text} {stop : Stop} (h : Halts g p blanks stop)
    (hwatch : p.watches)
    (htext : (if stop = .otherText then dropIndent (above ++ blanks) else above ++ blanks) =
      above ++ p.text) :
    p.text = blanks ∧ ∃ missing, takeBlanks 2 blanks = (blanks, [], missing) := by
  cases stop with
  | endOfText =>
    obtain ⟨hblanks, hblank, hgap⟩ := h
    obtain ⟨missing, -, hread⟩ := takeBlanks_eq_of_not_holdsBlankLine hblank (hgap hwatch)
    exact ⟨hblanks, missing, hread⟩
  | blankLine =>
    obtain ⟨-, rest, hread⟩ := h
    have hagain := takeBlanks_takeBlanks 2 p.text
    rw [hread] at hagain
    exact ⟨(List.append_cancel_left htext).symm, 0, hagain⟩
  | otherText =>
    exfalso
    obtain ⟨front, hfront, -, -, -, hne, -⟩ := h
    have hle := (dropIndent_isPrefix (above ++ blanks)).length_le
    rw [if_pos rfl] at htext
    rw [htext, hfront] at hle
    have := List.length_pos_iff.mpr hne
    simp only [List.length_append] at hle
    omega

/-- A complete comment closes all its regions, and the scan reads it to its end. -/
theorem exists_completeScan {t : Text} (h : g.leading t = .ok t) (hne : t ≠ []) :
    ∃ pieces blanks, CompleteScan g t pieces blanks := by
  obtain ⟨s, q, hsteps, hhalt, hs⟩ := leading_eq_ok_iff.mp h
  obtain ⟨n, hn⟩ := exists_closedCount?_zero s.pieces
  rw [Scan.leading_eq hsteps hn] at hs
  obtain ⟨h0, hfound⟩ : n ≠ 0 ∧ s.found n = t := by
    split at hs
    · exact absurd hs.symm hne
    · exact ⟨‹_›, hs⟩
  have hpieces : s.pieces ≠ [] := by
    rintro hp
    exact h0 (by simpa [hp, closedCount?] using hn.symm)
  have hle := Scan.length_le_of_found hsteps hfound
  have hclosed : Closed 0 s.pieces := by rw [Closed, hn, (closedCount?_le hn).antisymm hle]
  have hq : q = ⟨true, 0, q.text⟩ := by
    rw [← hsteps.started hpieces, ← hsteps.depth_eq_zero hclosed]
  have ht : t = piecesText s.pieces ++ q.text := hsteps.text
  rw [Scan.found_of_length_le hle, Scan.text] at hfound
  have hwatch : q.watches := by
    rw [hq]
    rfl
  obtain ⟨htext, hread⟩ := hhalt.read_of_eq hwatch (hfound.trans ht)
  rw [htext] at ht hq
  exact ⟨s.pieces, s.blanks, ht, hq ▸ hsteps, hclosed, hpieces, hread⟩

/-- A text without a leading comment is blank, or starts with no item, or with one that opens a
region which stays open. -/
theorem leading_eq_nil_cases {t : Text} (h : g.leading t = .ok []) :
    t.isAllBlank ∨ g.readItem t.trimStart = .other ∨
      ∃ piece others q r last stop, Step g (.start t) piece q ∧ Steps g q others r ∧
        Halts g r last stop ∧ closedCount? 0 (piece :: others) = some 0 := by
  obtain ⟨s, q, hsteps, hhalt, hs⟩ := leading_eq_ok_iff.mp h
  obtain ⟨n, hn⟩ := exists_closedCount?_zero s.pieces
  obtain rfl := (Scan.leading_eq_nil_iff hsteps hn).mp hs
  obtain ⟨pieces, last, stop⟩ := s
  cases hsteps with
  | nil =>
    cases stop with
    | endOfText => exact .inl (hhalt.1 ▸ hhalt.2.1 :)
    | blankLine => exact absurd hhalt.1 (by simp [Place.watches, Place.start])
    | otherText =>
      obtain ⟨front, ht, hb, -, hcore, -, hitem⟩ := hhalt
      refine .inr (.inl ?_)
      rwa [show t = last ++ front from ht, trimStart_append hb, hcore]
  | cons step steps => exact .inr (.inr ⟨_, _, _, _, _, _, step, steps, hhalt, hn⟩)

/-- The closing token of a block comment holds no line break. -/
def Grammar.ClosesInLine (g : Grammar) : Prop :=
  ∀ pair ∈ g.block, ∀ c ∈ pair.2.text, isLineBreak c = false

theorem item_unbroken_or_closed {t rest : Text} {item : Item} (h : g.readItem t = .item item rest) :
    (∀ c ∈ item.text, isLineBreak c = false) ∨
      ∃ pair ∈ g.block, pair.2.text <:+ item.text := by
  have whole : ∀ {kind}, Reading.wholeLine kind t = .item item rest →
      ∀ c ∈ item.text, isLineBreak c = false := by
    intro kind hread c hc
    obtain ⟨rfl, -⟩ := Reading.item.inj hread
    simpa using List.mem_takeWhile_imp hc
  cases Grammar.readItem_eq_item_iff.mp h with
  | lineComment _ read => exact .inl (whole read)
  | blockComment _ starts read =>
    obtain ⟨inner, -, rfl⟩ := Grammar.readBlock_eq_item_iff.mp read
    exact .inr ⟨_, (Option.filter_eq_some_iff.mp starts).1, List.suffix_append _ _⟩
  | regionStart _ _ _ read => exact .inl (whole read)
  | regionEnd _ _ _ _ read => exact .inl (whole read)

theorem isLineBreak_getLast?_item (hg : g.ClosesInLine) {t rest : Text} {item : Item}
    (h : g.readItem t = .item item rest) {c : Char} (hc : item.text.getLast? = some c) :
    isLineBreak c = false := by
  rcases item_unbroken_or_closed h with hline | ⟨pair, hpair, front, hfront⟩
  · exact hline c (List.mem_of_getLast? hc)
  · rw [← hfront, List.getLast?_append_of_ne_nil _ pair.2.ne_nil] at hc
    exact hg pair hpair c (List.mem_of_getLast? hc)

namespace CompleteScan

variable {t blanks : Text} {c : Char}

theorem isAllBlank (h : CompleteScan g t pieces blanks) : blanks.isAllBlank := by
  obtain ⟨missing, hread⟩ := h.read
  simpa [hread] using isAllBlank_takeBlanks 2 blanks

theorem exists_last_item (h : CompleteScan g t pieces blanks) :
    ∃ front item, piecesText pieces = front ++ item.text ∧ item.text.isAllBlank = false ∧
      g.readItem (item.text ++ blanks) = .item item blanks := by
  obtain ⟨init, last, rfl⟩ := (List.eq_nil_or_concat' pieces).resolve_left h.ne_nil
  obtain ⟨q, -, hlast⟩ := h.steps.split
  cases hlast with
  | cons step steps =>
    cases steps
    exact ⟨piecesText init ++ last.blanks, last.item, by simp [piecesText, Piece.text],
      step.not_isAllBlank, step.item⟩

theorem isLineBreak_getLast?_pieces (h : CompleteScan g t pieces blanks) (hg : g.ClosesInLine)
    (hc : (piecesText pieces).getLast? = some c) : isLineBreak c = false := by
  obtain ⟨front, item, hpieces, hblank, hitem⟩ := h.exists_last_item
  have hne : item.text ≠ [] := by
    rintro hnil
    simp [hnil] at hblank
  rw [hpieces, List.getLast?_append_of_ne_nil _ hne] at hc
  exact isLineBreak_getLast?_item hg hitem hc

theorem getLast?_blanks (h : CompleteScan g t pieces blanks) (hg : g.ClosesInLine)
    (hc : t.getLast? = some c) (hbreak : isLineBreak c) : blanks.getLast? = some c := by
  cases hb : blanks.getLast? with
  | some d => simpa [h.text, hb] using hc
  | none =>
    exfalso
    have hpieces : (piecesText pieces).getLast? = some c := by
      rwa [h.text, List.getLast?_eq_none_iff.mp hb, List.append_nil] at hc
    simp [h.isLineBreak_getLast?_pieces hg hpieces] at hbreak

variable (h : CompleteScan g t pieces blanks) (hc : blanks.getLast? = some c)
  (hbreak : isLineBreak c)
include h hc hbreak

theorem steps_append (more : Text) :
    Steps g (.start (t ++ more)) pieces ⟨true, 0, blanks ++ more⟩ :=
  h.steps.behind (List.mem_of_getLast? hc) hbreak more

theorem dropIndent_append (read : Text) :
    dropIndent (piecesText pieces ++ (blanks ++ read)) = t ++ dropIndent read := by
  have hlast : t.getLast? = some c := by simp [h.text, hc]
  rw [← List.append_assoc, ← h.text, dropIndent_append_of_getLast? hlast hbreak]

/-- Where the gap behind a complete comment ends the scan, the comment goes on to the end of the
gap. -/
theorem leading_append_of_gap {more read rest : Text} {missing : Nat}
    (hread : takeBlanks 2 (blanks ++ more) = (blanks ++ read, rest, missing))
    (hstop : missing = 0 ∨ rest = []) : g.leading (t ++ more) = .ok (t ++ read) := by
  have hsteps := h.steps_append hc hbreak more
  have hne : pieces.length ≠ 0 := mt List.length_eq_zero_iff.mp h.ne_nil
  have hleading : ∀ stop, stop ≠ .otherText → Scan.leading ⟨pieces, blanks ++ read, stop⟩ =
      t ++ read := by
    intro stop hs
    rw [Scan.leading_eq (s := ⟨pieces, blanks ++ read, stop⟩) hsteps h.closed, if_neg hne,
      Scan.found_of_length_le le_rfl, if_neg hs, Scan.text, h.text, List.append_assoc]
  by_cases hm : missing = 0
  · subst hm
    exact leading_eq_ok_iff.mpr ⟨⟨pieces, blanks ++ read, .blankLine⟩, _, hsteps,
      ⟨rfl, rest, hread⟩, hleading _ (by decide)⟩
  · obtain rfl := hstop.resolve_left hm
    have htext := takeBlanks_append 2 (blanks ++ more)
    have hblank := isAllBlank_takeBlanks 2 (blanks ++ more)
    rw [hread] at htext hblank
    simp only [List.append_nil] at htext
    refine leading_eq_ok_iff.mpr ⟨⟨pieces, blanks ++ read, .endOfText⟩, _, hsteps,
      ⟨htext.symm, hblank, fun _ hh => hm ?_⟩, hleading _ (by decide)⟩
    rw [HoldsBlankLine, htext, hread] at hh
    exact hh

section Core

variable {read rest : Text} (hblank : (blanks ++ read).isAllBlank)
  (hline : ¬ HoldsBlankLine (blanks ++ read)) (hcore : rest.trimStart = rest)
include hblank hline hcore

theorem leading_append_of_other (hrest : rest ≠ []) (hitem : g.readItem rest = .other) :
    g.leading (t ++ (read ++ rest)) = .ok (t ++ dropIndent read) := by
  have hsteps := h.steps_append hc hbreak (read ++ rest)
  have hne : pieces.length ≠ 0 := mt List.length_eq_zero_iff.mp h.ne_nil
  refine leading_eq_ok_iff.mpr ⟨⟨pieces, blanks ++ read, .otherText⟩, _, hsteps,
    ⟨rest, by simp, hblank, fun _ => hline, hcore, hrest, hitem⟩, ?_⟩
  rw [Scan.leading_eq (s := ⟨pieces, blanks ++ read, .otherText⟩) hsteps h.closed, if_neg hne,
    Scan.found_of_length_le le_rfl, if_pos rfl]
  exact h.dropIndent_append hc hbreak read

theorem leading_append_of_open {piece : Piece} {others : List Piece} {last : Text} {stop : Stop}
    (step : Step g (.start (read ++ rest)) piece q) (steps : Steps g q others r)
    (hhalt : Halts g r last stop) (hopen : closedCount? 0 (piece :: others) = some 0) :
    g.leading (t ++ (read ++ rest)) = .ok (t ++ dropIndent read) := by
  have hread : read.isAllBlank := by
    rw [isAllBlank_append, Bool.and_eq_true] at hblank
    exact hblank.2
  obtain ⟨-, hstep⟩ := step.of_blanks (r := ⟨true, 0, blanks ++ (read ++ rest)⟩) hread hblank hcore
    rfl (List.append_assoc _ _ _).symm rfl fun _ => hline
  have hsteps := (h.steps_append hc hbreak (read ++ rest)).append (.cons hstep steps)
  have hne : pieces.length ≠ 0 := mt List.length_eq_zero_iff.mp h.ne_nil
  have hopen : closedCount? 0 (⟨blanks ++ read, piece.item⟩ :: others) = some 0 := hopen
  have hcount := h.closed.append (⟨blanks ++ read, piece.item⟩ :: others)
  rw [hopen, Option.map_some, Nat.add_zero] at hcount
  refine leading_eq_ok_iff.mpr ⟨⟨pieces ++ ⟨blanks ++ read, piece.item⟩ :: others, last, stop⟩, r,
    hsteps, hhalt, ?_⟩
  rw [Scan.leading_eq hsteps hcount, if_neg hne, Scan.found_of_drop List.drop_left, List.take_left]
  exact h.dropIndent_append hc hbreak read

end Core

/-- Text that no comment starts is not taken for a part of the complete comment in front of it. -/
theorem leading_append_of_core {more read rest : Text} {missing : Nat}
    (hread : takeBlanks 2 (blanks ++ more) = (blanks ++ read, rest, missing))
    (hmissing : missing ≠ 0) (hrest : rest ≠ []) (hmore : g.leading more = .ok []) :
    g.leading (t ++ more) = .ok (t ++ dropIndent read) := by
  have htext := takeBlanks_append 2 (blanks ++ more)
  have hblank := isAllBlank_takeBlanks 2 (blanks ++ more)
  have hcore : (takeBlanks 2 (blanks ++ more)).2.1 = _ := takeBlanks_rest (by rwa [hread])
  have hgap := takeBlanks_takeBlanks 2 (blanks ++ more)
  rw [hread] at htext hblank hcore hgap
  simp only at htext hblank hcore hgap
  obtain rfl : read ++ rest = more := by simpa using htext
  have hrestcore : rest.trimStart = rest := by rw [hcore, trimStart_trimStart]
  have hline : ¬ HoldsBlankLine (blanks ++ read) := by
    rw [HoldsBlankLine, hgap]
    exact hmissing
  have hreadblank : read.isAllBlank := by
    rw [isAllBlank_append, Bool.and_eq_true] at hblank
    exact hblank.2
  have htrim : (read ++ rest).trimStart = rest := (trimStart_append hreadblank rest).trans hrestcore
  rcases leading_eq_nil_cases hmore with
    hall | hother | ⟨_, _, _, _, _, _, step, steps, hhalt, hopen⟩
  · rw [← trimStart_eq_nil_iff, htrim] at hall
    exact absurd hall hrest
  · rw [htrim] at hother
    exact h.leading_append_of_other hc hbreak hblank hline hrestcore hrest hother
  · exact h.leading_append_of_open hc hbreak hblank hline hrestcore step steps hhalt hopen

/-- In front of a gap that ends the scan, or of text that no comment starts, a complete comment
keeps the blanks of the gap. -/
theorem leading_append {more read rest : Text} {missing : Nat}
    (hread : takeBlanks 2 (blanks ++ more) = (blanks ++ read, rest, missing))
    (hmore : missing = 0 ∨ rest = [] ∨ g.leading more = .ok []) :
    g.leading (t ++ more) =
      .ok (t ++ if missing = 0 ∨ rest = [] then read else dropIndent read) := by
  split
  · rename_i hstop
    exact h.leading_append_of_gap hc hbreak hread hstop
  · rename_i hstop
    rw [not_or] at hstop
    have hnil := (hmore.resolve_left hstop.1).resolve_left hstop.2
    exact h.leading_append_of_core hc hbreak hread hstop.1 hstop.2 hnil

end CompleteScan

end Masthead.Comment
