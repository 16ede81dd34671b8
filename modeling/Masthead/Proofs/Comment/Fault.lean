import Masthead.Proofs.Comment.Ending
import Masthead.Proofs.Comment.Malformed

/-!
# Where a comment is malformed

An error names the byte at which a block comment starts that nothing closes, or a line that closes a
region none of which is open. In front of that byte stand only blanks, comments and region lines, all of
them part of one leading comment.
-/
namespace Masthead.Comment
open Text LineEnding

/-- How the text `front`, with `rest` behind it, is made of pieces and of the blanks `last`. Regions may
still be open; outside of them every item, and what `rest` starts with, comes at the latest in the next
line. -/
structure ReadUpTo (g : Grammar) (front rest : Text) (pieces : List Piece) (last : Text) : Prop where
  text : front = piecesText pieces ++ last
  blank : ∀ piece ∈ pieces, piece.blanks.isAllBlank
  lastBlank : last.isAllBlank
  written : ∀ above piece below, pieces = above ++ piece :: below →
    piece.item.WrittenBefore g (piecesText below ++ last ++ rest)
  opened : ∀ above, above <+: pieces → closings above ≤ openings above
  gap : ∀ above piece below, pieces = above ++ piece :: below → above ≠ [] →
    openings above = closings above → (endings piece.blanks).length ≤ 1
  lastGap : pieces ≠ [] → openings pieces = closings pieces → (endings last).length ≤ 1

/-- What an error says about the text in which it was found. -/
def CommentError.Describes (g : Grammar) (t : Text) : CommentError → Prop
  | .unterminatedBlockComment offset => ∃ opener closer front body pieces last,
      g.block = some (opener, closer) ∧ t = front ++ (opener.text ++ body) ∧ offset = front.bytes ∧
        ¬ closer.text <:+: body ∧ ReadUpTo g front (opener.text ++ body) pieces last
  | .unmatchedRegionClose offset => ∃ token ∈ g.regionEnd, ∃ front rest pieces last,
      t = front ++ rest ∧ offset = front.bytes ∧ token.IsSpelledBy rest ∧ Balanced pieces ∧
        ReadUpTo g front rest pieces last

variable {g : Grammar} {t rest : Text} {p q : Place} {pieces : List Piece}

/-- A block comment that is not closed starts with its opening token, and no closing one follows. -/
theorem exists_of_readItem_eq_unterminated (h : g.readItem t = .unterminated) :
    ∃ opener closer body, g.block = some (opener, closer) ∧ t = opener.text ++ body ∧
      ¬ closer.text <:+: body := by
  unfold Grammar.readItem at h
  split at h
  · cases h
  · split at h
    · rename_i opener closer hpair
      obtain ⟨hblock, hprefix⟩ := Option.filter_eq_some_iff.mp hpair
      obtain ⟨body, rfl⟩ := (List.isPrefixOf_iff_prefix.mp hprefix).trans (firstWord_isPrefix t)
      refine ⟨opener, closer, body, hblock, rfl, ?_⟩
      unfold Grammar.readBlock at h
      split at h
      · cases h
      · rename_i hnone
        rw [List.drop_left] at hnone
        rw [← contains_eq_true_iff, contains, hnone]
        exact Bool.false_ne_true
    · split at h
      · cases h
      · split at h <;> cases h

theorem exists_isSpelledBy_of_readItem {item : Item} (h : g.readItem t = .item item rest)
    (hkind : item.kind = .regionEnd) : ∃ token ∈ g.regionEnd, token.IsSpelledBy t := by
  have hwritten := writtenBefore_of_readItem h
  simp only [Item.WrittenBefore, hkind] at hwritten
  obtain ⟨⟨token, htoken, hspelled⟩, hfills⟩ := hwritten
  obtain ⟨rfl, -⟩ := Grammar.readItem_eq_item h
  refine ⟨token, htoken, isSpelledBy_firstLine_iff.mp ?_⟩
  rwa [hfills.firstLine]

theorem depthAfter?_eq_none_iff {kind : ItemKind} {depth : ℕ} :
    kind.depthAfter? depth = none ↔ kind = .regionEnd ∧ depth = 0 := by
  cases kind <;> cases depth <;> simp [ItemKind.depthAfter?]

/-- What a flaw says about the text in front of which a scan fails. -/
theorem flaw?_eq_some {depth : ℕ} {flaw : ℕ → CommentError} (h : g.flaw? depth t = some flaw) :
    (flaw = .unterminatedBlockComment ∧ ∃ opener closer body, g.block = some (opener, closer) ∧
      t = opener.text ++ body ∧ ¬ closer.text <:+: body) ∨
    (flaw = .unmatchedRegionClose ∧ depth = 0 ∧ ∃ token ∈ g.regionEnd, token.IsSpelledBy t) := by
  unfold Grammar.flaw? at h
  split at h
  · rename_i hitem
    exact .inl ⟨(Option.some.inj h).symm, exists_of_readItem_eq_unterminated hitem⟩
  · rename_i item rest hitem
    split at h
    · rename_i hdepth
      obtain ⟨hkind, hdepth⟩ := depthAfter?_eq_none_iff.mp hdepth
      exact .inr ⟨(Option.some.inj h).symm, hdepth, exists_isSpelledBy_of_readItem hitem hkind⟩
    · cases h
  · cases h

/-- The pieces that are read from the start of a text, and the gap behind them. -/
theorem Steps.readUpTo (h : Steps g (.start t) pieces q) {last : Text}
    (hgap : readGap q.watches q.text = ⟨last, rest, none⟩) :
    t = (piecesText pieces ++ last) ++ rest ∧
      ReadUpTo g (piecesText pieces ++ last) rest pieces last := by
  obtain ⟨hq, hblank, -, -, hline⟩ := readGap_eq_none_iff.mp hgap
  have ht : t = piecesText pieces ++ q.text := h.text
  refine ⟨by rw [ht, hq, List.append_assoc], ?_⟩
  exact {
    text := rfl
    blank := h.blank
    lastBlank := hblank
    written := fun above piece below hpieces => by
      rw [List.append_assoc, ← hq]
      exact h.written above piece below hpieces
    opened := h.opened rfl
    gap := h.gap rfl
    lastGap := fun hne hclosed =>
      length_endings_le_one hblank (hline (h.watches rfl hne hclosed)) }

/-- An error describes the text whose leading comment is malformed. -/
theorem describes_of_leading {cause : CommentError} (h : g.leading t = .error cause) :
    cause.Describes g t := by
  obtain ⟨pieces, q, last, flaw, hsteps, ⟨rest, hgap, hflaw⟩, rfl⟩ := leading_eq_error_iff.mp h
  obtain ⟨ht, hread⟩ := hsteps.readUpTo hgap
  rcases flaw?_eq_some hflaw with ⟨rfl, opener, closer, body, hblock, rfl, hnone⟩ |
    ⟨rfl, hdepth, token, htoken, hspelled⟩
  · exact ⟨opener, closer, _, body, pieces, last, hblock, ht, rfl, hnone, hread⟩
  · exact ⟨token, htoken, _, rest, pieces, last, ht, rfl, hspelled, hsteps.balanced rfl hdepth, hread⟩

/-- A block comment in an open region, and a region end of two words behind a region. -/
theorem describes_of_leading_regions :
    (regionGrammar.leading "// ä\n#region a\n\n\n /* b".toList =
        .error (.unterminatedBlockComment 19) ∧
      (CommentError.unterminatedBlockComment 19).Describes regionGrammar
        "// ä\n#region a\n\n\n /* b".toList) ∧
    regionGrammar.leading "\n\n#region a\n\n#endregion\n/* b */#end\tregion\ncode".toList =
        .error (.unmatchedRegionClose 31) ∧
      (CommentError.unmatchedRegionClose 31).Describes regionGrammar
        "\n\n#region a\n\n#endregion\n/* b */#end\tregion\ncode".toList := by
  have hblock : regionGrammar.leading "// ä\n#region a\n\n\n /* b".toList =
      .error (.unterminatedBlockComment 19) := by cbv
  have hclose : regionGrammar.leading "\n\n#region a\n\n#endregion\n/* b */#end\tregion\ncode".toList =
      .error (.unmatchedRegionClose 31) := by cbv
  exact ⟨⟨hblock, describes_of_leading hblock⟩, hclose, describes_of_leading hclose⟩

end Masthead.Comment
