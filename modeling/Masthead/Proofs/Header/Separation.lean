import Masthead.Proofs.Comment.Malformed
import Masthead.Proofs.Header.Revision

/-!
# A header stays apart from what follows

Read again in front of the text it was laid out for, a header takes nothing but blanks of that text.
A header that ends with a blank line takes nothing at all, so removing it gives the text back.
-/
namespace Masthead.Header
open Text LineEnding Comment

variable {g : Grammar} {lines : List Text} {e : LineEnding} {following written t : Text}

/-- A header is proper if it is a complete comment in one line ending and not blank there. -/
theorem Unbroken.proper_of_isComplete (h : Unbroken lines) (hg : g.ClosesPlainly)
    (hcomplete : g.isComplete (linesText e lines))
    (hblank : (linesText e lines).isAllBlank = false) : Proper g lines where
  complete := by
    rwa [h.linesText_eq_respell, isComplete_respell hg.closesInLine h.cr_notMem_linesText_lf]
      at hcomplete
  notBlank := by
    rwa [h.linesText_eq_respell, isAllBlank_respell h.cr_notMem_linesText_lf] at hblank
  unbroken := h

/-- What is cut off a text as far as its first character that is not blank lies among the blanks in
front of that character. -/
theorem isPrefix_append_takeWhile {front rest : Text} (hcut : front ++ rest = written ++ following)
    (hcore : rest.trimStart = following.trimStart) :
    front <+: written ++ following.takeWhile isBlank := by
  have htext :
      written ++ following.takeWhile isBlank ++ following.trimStart = written ++ following := by
    rw [List.append_assoc, trimStart, List.takeWhile_append_dropWhile]
  refine List.prefix_of_prefix_length_le ⟨rest, hcut⟩ ⟨_, htext⟩ ?_
  have hrest : rest.trimStart.length ≤ rest.length := (List.dropWhile_suffix _).length_le
  have hlength := congrArg List.length (htext.trans hcut.symm)
  rw [hcore] at hrest
  simp only [List.length_append] at hlength ⊢
  omega

/-- A header that was laid out before a text is found again in front of it, and the comment that is
found ends among the blanks at the start of that text. -/
theorem exists_leading_within (hg : g.ClosesPlainly) (hunbroken : Unbroken lines)
    (hcomplete : g.isComplete (linesText e lines)) (hblank : (linesText e lines).isAllBlank = false)
    (hout : layOut g (linesText e lines) following = .ok written) :
    ∃ comment, g.leading (written ++ following) = .ok comment ∧ linesText e lines <+: comment ∧
      comment <+: written ++ following.takeWhile isBlank := by
  have hproper := hunbroken.proper_of_isComplete hg hcomplete hblank
  obtain ⟨blanks, rest, -, hcore, htext, hleading⟩ := hproper.exists_leading_written hg hout
  exact ⟨_, hleading, List.prefix_append _ _, isPrefix_append_takeWhile htext.symm hcore⟩

/-- A lone carriage return at the end of a header makes a pair with the line feed behind it. -/
theorem exists_leading_within_pair : ∃ comment,
    slashed.grammar.leading "// H\r\n  code".toList = .ok comment ∧
      "// H\r".toList <+: comment ∧ comment <+: "// H\r\n  ".toList := by
  have hg : slashed.grammar.ClosesPlainly := Language.closesPlainly (by decide)
  have hcomplete : slashed.grammar.isComplete (linesText .cr ["// H".toList]) := by cbv
  have hout : layOut slashed.grammar (linesText .cr ["// H".toList]) "\n  code".toList =
      .ok "// H\r".toList := by cbv
  exact exists_leading_within hg (by decide) hcomplete (by decide) hout

namespace Rule

/-- Above a text without a header, a header that ends with a blank line is inserted as it is, and
removing it gives the text back, unless the header and the text would form a pair. -/
theorem inserted_removed {l : Language} {give take : Rule} (hplain : l.hasPlainTokens)
    (hskip : l.skip.getD [] = []) (hgive : ofLanguage l (some lines) [] = .ok give)
    (htake : ofLanguage l none [] = .ok take) (hsound : give.Sound) (hends : endsBlank lines)
    (hc : give.grammar.leading t = .ok []) (hpair : ¬ (dominant t = .cr ∧ t.head? = some '\n')) :
    give.revise t = .ok ⟨.inserted, linesText (dominant t) lines ++ t⟩ ∧
      take.revise (linesText (dominant t) lines ++ t) = .ok ⟨.removed, t⟩ := by
  rw [ofLanguage_eq hskip, Except.ok.injEq] at hgive htake
  subst hgive htake
  have hne : linesText (dominant t) lines ≠ [] := linesText_ne_nil _ _
  constructor
  · have hlay : layOut l.grammar (linesText (dominant t) lines) t =
        .ok (linesText (dominant t) lines) := by
      rw [(hsound.unbroken lines rfl).layOut_linesText, hc]
      split <;> rfl
    rw [revise_of_other rfl rfl hc hne]
    simp [behind, replaceable, passesGate, normalizeKeywords, hlay, hne, Except.map]
  · have hleading : l.grammar.leading (linesText (dominant t) lines ++ t) =
        .ok (linesText (dominant t) lines) := by
      have := (hsound.proper rfl).leading_append (Language.closesPlainly hplain) hpair
        (.inr (.inl hends))
      simpa [hends] using this
    rw [revise_of_leading rfl hleading]
    simp [behind, replaceable, passesGate, normalizeKeywords, headerText?, replaceHeader, hne,
      Except.map]

/-- Blank lines that open a text are not taken for the blank line of the header. -/
theorem inserted_removed_blankLine :
    (slashedRule (some ["// H".toList, []]) []).revise "\n\ncode\n".toList =
        .ok ⟨.inserted, "// H\n\n\n\ncode\n".toList⟩ ∧
      (slashedRule none []).revise "// H\n\n\n\ncode\n".toList = .ok ⟨.removed, "\n\ncode\n".toList⟩ := by
  have hsound : (slashedRule (some ["// H".toList, []]) []).Sound :=
    sound_slashedRule _ (by cbv) (by decide) (by decide)
  exact inserted_removed (l := slashed) (t := "\n\ncode\n".toList) (by decide) rfl rfl rfl hsound
    (by decide) (by cbv) (by decide)

end Rule
end Masthead.Header
