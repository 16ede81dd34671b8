import Masthead.Proofs.Comment.Completeness

/-!
# Where a leading comment ends

What is read of a comment does not depend on the text behind it, so a leading comment that is cut off
its text is complete. A complete comment with a blank line at its end shuts out whatever comes next.
-/
namespace Masthead
open Text

namespace Text

/-- The blanks at the end of a text. -/
def endBlanks (t : Text) : Text := t.rtakeWhile isBlank

theorem endBlanks_append_blanks {blanks : Text} (h : blanks.isAllBlank) (t : Text) :
    endBlanks (t ++ blanks) = endBlanks t ++ blanks := by
  have hrev : ∀ c ∈ blanks.reverse, isBlank c := by simpa using isAllBlank_iff.mp h
  simp [endBlanks, List.rtakeWhile, List.takeWhile_append_of_pos hrev]

theorem endBlanks_append_of_not_isAllBlank {t : Text} (h : t.isAllBlank = false) (s : Text) :
    endBlanks (s ++ t) = endBlanks t := by
  obtain ⟨c, hc, hplain⟩ : ∃ c ∈ t.reverse, isBlank c = false := by
    simpa [isAllBlank] using h
  rw [endBlanks, List.rtakeWhile, List.reverse_append,
    Comment.takeWhile_append_of_mem hc hplain]
  rfl

end Text

namespace Comment
open LineEnding

variable {g : Grammar} {p q : Place} {pieces : List Piece}

/-! ## Items without the text behind them -/

section Items

variable {item : Item} {t behind more : Text}

theorem head?_front {c : Char} (hc : c ∈ behind.head?) : c ∈ (behind ++ more).head? := by
  cases behind with
  | nil => simp at hc
  | cons => exact hc

theorem FillsLine.front (h : FillsLine t (behind ++ more)) : FillsLine t behind :=
  ⟨h.1, fun c hc => h.2 c (head?_front hc)⟩

theorem FillsLine.firstLine (h : FillsLine t behind) : (t ++ behind).firstLine = t :=
  takeWhile_append_of_head? (by simpa using h.1) (by simpa using h.2)

theorem isSpelledBy_firstLine_iff {token : Token} :
    token.IsSpelledBy t.firstLine ↔ token.IsSpelledBy t := by
  refine ⟨?_, Token.IsSpelledBy.firstLine⟩
  rintro (hword | ⟨first, gap, second, after, hline, hfirst, hgap, hsecond, hwords, hspaces, hafter,
    hspelled⟩)
  · exact .inl ((firstWord_firstLine t).symm.trans hword)
  · refine .inr ⟨first, gap, second, after ++ t.dropWhile (!isLineBreak ·), ?_, hfirst, hgap, hsecond,
      hwords, hspaces, ?_, hspelled⟩
    · rw [← List.append_assoc, ← hline, firstLine_append_dropWhile]
    · cases after with
      | nil => exact fun c hc => isBlank_of_isLineBreak ((fillsLine_firstLine t).2 c hc)
      | cons => exact hafter

theorem firstWord_of_firstLine {s : Text} (h : s.firstLine = t.firstLine) :
    s.firstWord = t.firstWord := by
  rw [← firstWord_firstLine s, h, firstWord_firstLine]

theorem opensRegion_of_firstLine {s : Text} (h : s.firstLine = t.firstLine) :
    g.opensRegion s = g.opensRegion t := by
  rw [Grammar.opensRegion, Grammar.opensRegion, firstWord_of_firstLine h]

theorem closesRegion_of_firstLine {s : Text} (h : s.firstLine = t.firstLine) :
    g.closesRegion s = g.closesRegion t := by
  rw [Bool.eq_iff_iff, closesRegion_iff, closesRegion_iff]
  simp only [← isSpelledBy_firstLine_iff (t := s), h, isSpelledBy_firstLine_iff]

theorem wholeLine_front {kind : ItemKind}
    (h : Reading.wholeLine kind (item.text ++ (behind ++ more)) = .item item (behind ++ more)) :
    (item.text ++ behind).firstLine = (item.text ++ (behind ++ more)).firstLine ∧
      Reading.wholeLine kind (item.text ++ behind) = .item item behind := by
  have hfills := fillsLine_firstLine (item.text ++ (behind ++ more))
  obtain ⟨hitem, hrest⟩ := Reading.item.inj h
  have htext : (item.text ++ (behind ++ more)).firstLine = item.text := congrArg Item.text hitem
  have hkind : kind = item.kind := congrArg Item.kind hitem
  rw [hrest, htext] at hfills
  exact ⟨hfills.front.firstLine.trans htext.symm, by rw [wholeLine_of_fillsLine hfills.front, hkind]⟩

theorem firstWord_front (s more : Text) : s.firstWord <+: (s ++ more).firstWord := by
  rw [firstWord, firstWord, List.takeWhile_append]
  split
  · rename_i hall
    rw [(List.takeWhile_prefix _).eq_of_length hall]
    exact List.prefix_append ..
  · exact List.prefix_rfl

/-- A block comment is read without the text behind it, and a shorter word starts with no other token
than the longer one. -/
theorem readBlock_front {opener closer : Token}
    (hpair : g.blockAt? (item.text ++ (behind ++ more)).firstWord = some (opener, closer))
    (h : Grammar.readBlock opener closer (item.text ++ (behind ++ more)) =
      .item item (behind ++ more)) :
    g.blockAt? (item.text ++ behind).firstWord = some (opener, closer) ∧
      Grammar.readBlock opener closer (item.text ++ behind) = .item item behind := by
  obtain ⟨hblock, hprefix⟩ := Option.filter_eq_some_iff.mp hpair
  have hplain : ∀ c ∈ opener.text, isBlank c = false := fun c hc =>
    isBlank_of_mem_firstWord ((List.isPrefixOf_iff_prefix.mp hprefix).subset hc)
  have hkind : item.kind = .blockComment := by
    obtain ⟨inner, -, hitem⟩ := Grammar.readBlock_eq_item_iff.mp h
    exact congrArg Item.kind hitem
  have hwritten := writtenBefore_of_readBlock hpair h
  simp only [Item.WrittenBefore, hkind] at hwritten
  obtain ⟨opener', closer', inner, hblock', htext, first⟩ := hwritten
  obtain ⟨rfl, rfl⟩ : opener = opener' ∧ closer = closer' := by
    simpa using hblock.symm.trans hblock'
  have hfront : item.text ++ behind = opener.text ++ (inner ++ closer.text ++ behind) := by
    simp only [htext, List.append_assoc]
  rw [hfront]
  refine ⟨Option.filter_eq_some_iff.mpr ⟨hblock, ?_⟩, ?_⟩
  · exact List.isPrefixOf_iff_prefix.mpr (isPrefix_firstWord hplain _)
  · rw [Grammar.readBlock, List.drop_left, List.take_left, splitAtFirst?_of_occurrence first]
    simp only [← hkind, ← htext]

theorem startsLineComment_front {s : Text} (h : ¬ g.startsLineComment (s ++ more).firstWord) :
    ¬ g.startsLineComment s.firstWord := by
  rw [Grammar.startsLineComment, Option.any_eq_true] at h ⊢
  rintro ⟨token, htoken, hprefix⟩
  exact h ⟨token, htoken, List.isPrefixOf_iff_prefix.mpr
    ((List.isPrefixOf_iff_prefix.mp hprefix).trans (firstWord_front s more))⟩

theorem readItem_front
    (h : g.readItem (item.text ++ (behind ++ more)) = .item item (behind ++ more)) :
    g.readItem (item.text ++ behind) = .item item behind := by
  rw [Grammar.readItem_eq_item_iff] at h ⊢
  cases h with
  | lineComment starts read =>
    obtain ⟨hline, hread⟩ := wholeLine_front read
    exact .lineComment (firstWord_of_firstLine hline ▸ starts) hread
  | blockComment noLine starts read =>
    obtain ⟨hpair, hread⟩ := readBlock_front starts read
    rw [← List.append_assoc] at noLine
    exact .blockComment (startsLineComment_front noLine) hpair hread
  | regionStart noLine noBlock opens read =>
    obtain ⟨hline, hread⟩ := wholeLine_front read
    have hword := firstWord_of_firstLine hline
    exact .regionStart (hword ▸ noLine) (hword ▸ noBlock) (opensRegion_of_firstLine hline ▸ opens) hread
  | regionEnd noLine noBlock noStart closes read =>
    obtain ⟨hline, hread⟩ := wholeLine_front read
    have hword := firstWord_of_firstLine hline
    exact .regionEnd (hword ▸ noLine) (hword ▸ noBlock) (opensRegion_of_firstLine hline ▸ noStart)
      (closesRegion_of_firstLine hline ▸ closes) hread

end Items

/-! ## Comments without the text behind them -/

section Leading

variable {t comment last rest : Text}

theorem Step.front {piece : Piece} (h : Step g p piece q) (hq : q.text = last ++ rest) :
    Step g { p with text := piece.text ++ last } piece { q with text := last } where
  text := rfl
  blank := h.blank
  gap := h.gap
  item := by
    have hitem := h.item
    rw [hq] at hitem
    exact readItem_front hitem
  depth := h.depth
  started := h.started

theorem Steps.front (h : Steps g p pieces q) (hq : q.text = last ++ rest) :
    Steps g { p with text := piecesText pieces ++ last } pieces { q with text := last } := by
  induction h with
  | nil => exact .nil
  | @cons p q _ piece pieces step steps ih =>
    have hbehind : q.text = (piecesText pieces ++ last) ++ rest := by
      rw [steps.text, hq, List.append_assoc]
    have hfront := step.front hbehind
    rw [← List.append_assoc] at hfront
    exact .cons hfront (ih hq)

/-- Pieces that leave no region open are a complete comment together with the blanks behind them, up to
a blank line at most. -/
theorem Steps.completeScan (h : Steps g (.start t) pieces q) (hne : pieces ≠ []) (hdepth : q.depth = 0)
    (hq : q.text = last ++ rest) (hread : ∃ missing, takeBlanks 2 last = (last, [], missing)) :
    CompleteScan g (piecesText pieces ++ last) pieces last where
  text := rfl
  steps := by
    have hfront := h.front hq
    rwa [h.started hne, hdepth] at hfront
  closed := h.closed hdepth
  ne_nil := hne
  read := hread

theorem CompleteScan.leading_eq (h : CompleteScan g t pieces last) : g.leading t = .ok t := by
  obtain ⟨missing, hread⟩ := h.read
  obtain ⟨stop, hhalt, hstop⟩ : ∃ stop, Halts g ⟨true, 0, last⟩ last stop ∧ stop ≠ .otherText := by
    by_cases hm : missing = 0
    · subst hm
      exact ⟨.blankLine, ⟨rfl, [], hread⟩, by decide⟩
    · refine ⟨.endOfText, ⟨rfl, h.isAllBlank, fun _ hline => hm ?_⟩, by decide⟩
      rwa [HoldsBlankLine, hread] at hline
  rw [leading_of_scanned h.steps h.ne_nil rfl hhalt hstop, ← h.text]

theorem exists_read_of_not_holdsBlankLine {blanks : Text} (hb : blanks.isAllBlank)
    (hline : ¬ HoldsBlankLine blanks) :
    ∃ missing, takeBlanks 2 (dropIndent blanks) = (dropIndent blanks, [], missing) := by
  have hone := length_endings_le_one hb hline
  rw [← endings_dropIndent] at hone
  obtain ⟨missing, -, hread⟩ := takeBlanks_eq_of_not_holdsBlankLine
    (by rwa [isAllBlank_dropIndent]) (not_holdsBlankLine hone)
  exact ⟨missing, hread⟩

theorem Steps.completeScan_dropIndent (hg : g.ClosesPlainly) (h : Steps g (.start t) pieces q)
    (hne : pieces ≠ []) (hdepth : q.depth = 0) {blanks core : Text} (hq : q.text = blanks ++ core)
    (hb : blanks.isAllBlank) (hline : ¬ HoldsBlankLine blanks) (hcore : core.trimStart = core)
    (hcorene : core ≠ []) :
    ∃ last, CompleteScan g (dropIndent (piecesText pieces ++ blanks)) pieces last := by
  obtain ⟨indent, hindent, -⟩ := exists_eq_dropIndent_append blanks
  have hbehind : q.text = dropIndent blanks ++ (indent ++ core) := by
    rw [hq, ← List.append_assoc, ← hindent]
  rw [h.dropIndent_append hg hne hq hcore hcorene]
  exact ⟨_, h.completeScan hne hdepth hbehind (exists_read_of_not_holdsBlankLine hb hline)⟩

theorem Halts.exists_read {blanks : Text} {stop : Stop} (h : Halts g q blanks stop)
    (hstop : stop ≠ .otherText) (hwatches : q.watches) :
    ∃ missing, takeBlanks 2 blanks = (blanks, [], missing) := by
  cases stop with
  | endOfText =>
    obtain ⟨-, hb, hline⟩ := h
    obtain ⟨missing, -, hread⟩ := takeBlanks_eq_of_not_holdsBlankLine hb (hline hwatches)
    exact ⟨missing, hread⟩
  | blankLine =>
    obtain ⟨-, rest, hread⟩ := h
    have hagain := takeBlanks_takeBlanks 2 q.text
    rw [hread] at hagain
    exact ⟨0, hagain⟩
  | otherText => exact absurd rfl hstop

/-- A leading comment that is cut off its text is scanned to its end. -/
theorem exists_completeScan_of_leading (hg : g.ClosesPlainly) (h : g.leading t = .ok comment)
    (hne : comment ≠ []) : ∃ pieces last, CompleteScan g comment pieces last := by
  obtain ⟨s, q, hsteps, hhalt, rfl⟩ := leading_eq_ok_iff.mp h
  obtain ⟨n, hn⟩ := exists_closedCount?_zero s.pieces
  have hpos : n ≠ 0 := mt (Scan.leading_eq_nil_iff hsteps hn).mpr hne
  rw [Scan.leading_eq hsteps hn, if_neg hpos]
  obtain ⟨middle, hfront, hback⟩ := (List.take_append_drop n s.pieces ▸ hsteps).split
  have hdepth : middle.depth = 0 := hfront.depth_eq_zero (closed_take hn)
  have hpieces : s.pieces.take n ≠ [] := by
    intro hnil
    obtain h0 | hnil := List.take_eq_nil_iff.mp hnil
    · exact hpos h0
    · exact hpos (by simpa [hnil, closedCount?] using hn.symm)
  have hwatches : middle.watches := by simp [Place.watches, hfront.started hpieces, hdepth]
  cases hdrop : s.pieces.drop n with
  | nil =>
    have hle := List.drop_eq_nil_iff.mp hdrop
    rw [hdrop] at hback
    cases hback
    rw [List.take_of_length_le hle] at hfront hpieces
    rw [Scan.found_of_length_le hle, Scan.text]
    split
    · rename_i hstop
      rw [hstop] at hhalt
      obtain ⟨core, hq, hb, hline, hcore, hcorene, -⟩ := hhalt
      obtain ⟨last, hscan⟩ := hfront.completeScan_dropIndent hg hpieces hdepth hq hb (hline hwatches)
        hcore hcorene
      exact ⟨_, last, hscan⟩
    · rename_i hstop
      obtain ⟨rest, hq⟩ := hhalt.isPrefix
      exact ⟨_, _, hfront.completeScan hpieces hdepth hq.symm (hhalt.exists_read hstop hwatches)⟩
  | cons opening more =>
    rw [Scan.found_of_drop hdrop]
    rw [hdrop] at hback
    cases hback with
    | @cons _ after _ _ _ step _ =>
      have hq : middle.text = opening.blanks ++ (opening.item.text ++ after.text) := by
        rw [step.text, Piece.text, List.append_assoc]
      obtain ⟨last, hscan⟩ := hfront.completeScan_dropIndent hg hpieces hdepth hq step.blank
        (step.gap hwatches) step.core.1 step.core.2
      exact ⟨_, last, hscan⟩

theorem leading_nil (g : Grammar) : g.leading [] = .ok [] :=
  leading_eq_ok_iff.mpr ⟨⟨[], [], .endOfText⟩, _, .nil,
    ⟨rfl, rfl, fun hwatches => by simp [Place.watches, Place.start] at hwatches⟩, rfl⟩

/-- A leading comment is its own leading comment, so it is a complete one. -/
theorem leading_leading (hg : g.ClosesPlainly) (h : g.leading t = .ok comment) :
    g.leading comment = .ok comment ∧ g.isComplete comment := by
  have hself : g.leading comment = .ok comment := by
    by_cases hne : comment = []
    · rw [hne, leading_nil]
    · obtain ⟨pieces, last, hscan⟩ := exists_completeScan_of_leading hg h hne
      exact hscan.leading_eq
  exact ⟨hself, isComplete_of_leading hself⟩

/-- Cut off in front of a region that stays open, the comment ends with a block comment that had text
behind it. -/
theorem leading_leading_openRegion :
    regionGrammar.leading "// a\n#region b\n\n#end region\n/* c */\t#region d\ncode".toList =
        .ok "// a\n#region b\n\n#end region\n/* c */".toList ∧
      regionGrammar.leading "// a\n#region b\n\n#end region\n/* c */".toList =
        .ok "// a\n#region b\n\n#end region\n/* c */".toList ∧
      regionGrammar.isComplete "// a\n#region b\n\n#end region\n/* c */".toList := by
  have hleading :
      regionGrammar.leading "// a\n#region b\n\n#end region\n/* c */\t#region d\ncode".toList =
        .ok "// a\n#region b\n\n#end region\n/* c */".toList := by cbv
  exact ⟨hleading, leading_leading closesPlainly_regionGrammar hleading⟩

end Leading

/-! ## Blank lines -/

section BlankLine

variable {t comment blanks more : Text}

theorem isLineBreak_of_mem_endBlanks (hg : g.ClosesPlainly) {rest : Text} {item : Item}
    (h : g.readItem t = .item item rest) : ∀ c ∈ endBlanks item.text, isLineBreak c = false := by
  rcases item_unbroken_or_closed h with hline | ⟨pair, hpair, front, hfront⟩
  · exact fun c hc => hline c ((List.rtakeWhile_suffix isBlank item.text).subset hc)
  · obtain ⟨closer, c, hcloser⟩ := (List.eq_nil_or_concat' pair.2.text).resolve_left pair.2.ne_nil
    have hplain : isBlank c = false := hg pair hpair c (by simp [hcloser])
    have hnil : endBlanks item.text = [] := by
      rw [← hfront, hcloser, ← List.append_assoc, endBlanks, List.rtakeWhile_concat, hplain]
      rfl
    simp [hnil]

/-- The line endings at the end of a complete comment are those behind its last item. -/
theorem CompleteScan.endings_endBlanks (hg : g.ClosesPlainly) (h : CompleteScan g t pieces blanks) :
    endings (endBlanks t) = endings blanks := by
  obtain ⟨front, item, hpieces, hblank, hitem⟩ := h.exists_last_item
  rw [h.text, hpieces, endBlanks_append_blanks h.isAllBlank,
    endBlanks_append_of_not_isAllBlank hblank,
    endings_unbroken_append (isLineBreak_of_mem_endBlanks hg hitem)]

/-- Behind a complete comment that ends with a blank line, no text changes the comment or makes it
malformed. -/
theorem leading_append_of_blankLine (hg : g.ClosesPlainly) (hcomment : g.leading comment = .ok comment)
    (hblank : 2 ≤ (endings (endBlanks comment)).length) (hcut : ¬ CutsPair comment more) :
    g.leading (comment ++ more) = .ok comment := by
  have hne : comment ≠ [] := by
    rintro rfl
    simp [endBlanks] at hblank
  obtain ⟨pieces, blanks, hscan⟩ := exists_completeScan hcomment hne
  obtain ⟨missing, hread⟩ := hscan.read
  have hcount := missing_add_endings 2 blanks
  rw [hscan.endings_endBlanks hg] at hblank
  obtain rfl : missing = 0 := by
    rw [hread] at hcount
    simp only at hcount
    omega
  obtain ⟨c, hlast, hbreak⟩ := takeBlanks_getLast? (t := blanks) two_ne_zero (by rw [hread])
  rw [hread] at hlast
  have hcut' : ¬ CutsPair blanks more := by
    rintro ⟨hcr, hlf⟩
    exact hcut ⟨by simp [hscan.text, hcr], hlf⟩
  have hgap : takeBlanks 2 (blanks ++ more) = (blanks ++ [], more, 0) := by
    simp [takeBlanks_append_of_eq hread hcut']
  rw [hscan.leading_append_of_gap hlast hbreak hgap (.inl rfl), List.append_nil]

/-- Neither an unmatched region end nor an open block comment behind the blank line does harm. -/
theorem leading_append_of_blankLine_faults :
    regionGrammar.leading "#region a\n#endregion b \r\n\t\r".toList =
        .ok "#region a\n#endregion b \r\n\t\r".toList ∧
      regionGrammar.leading ("#region a\n#endregion b \r\n\t\r".toList ++ "#endregion\n/* c".toList) =
        .ok "#region a\n#endregion b \r\n\t\r".toList := by
  have hcomment : regionGrammar.leading "#region a\n#endregion b \r\n\t\r".toList =
      .ok "#region a\n#endregion b \r\n\t\r".toList := by cbv
  exact ⟨hcomment, leading_append_of_blankLine closesPlainly_regionGrammar hcomment (by decide)
    (by simp [CutsPair])⟩

end BlankLine

end Comment
end Masthead
