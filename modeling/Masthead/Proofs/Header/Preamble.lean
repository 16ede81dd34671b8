import Masthead.Proofs.Header.Frame
import Masthead.Proofs.Language.PreambleEnd

/-!
# Preambles above a header

A revision puts the header right behind what the language skips. The next revision skips the same
exactly if the expression of the language ends its match there, in front of the header.
-/
namespace Masthead
open Text LineEnding Comment

theorem Language.hasPlainTokens_builtIn : ∀ l ∈ builtIn, l.hasPlainTokens := by decide

namespace Header.Rule

variable {r : Rule} {l : Language} {kind : Language.Preamble} {lines : List Text} {t : Text}

theorem ofLanguage_of_expression (h : l.skip = some kind.expression) (header : Option (List Text))
    (keywords : List Text) : ofLanguage l header keywords =
      .ok ⟨l.grammar, some kind.pattern, header, normalizeKeywords keywords⟩ := by
  simp [ofLanguage, l.skipPattern?_of_expression h, bind, Except.bind]

theorem splitSkipped_snd (h : r.skip = some kind.pattern) (t : Text) :
    (r.splitSkipped t).2 = kind.drop t := by
  rw [splitSkipped, h, Option.bind_some, kind.leaves_pattern.restAfter?_eq, Language.Preamble.drop]
  cases kind.rest? t <;> rfl

theorem splitSkipped_append_drop (h : r.skip = some kind.pattern) (t : Text) :
    (r.splitSkipped t).1 ++ kind.drop t = t := by
  rw [← splitSkipped_snd h]
  exact (splitSkipped_eq rfl).1.symm

theorem splitSkipped_fst_eq_iff (h : r.skip = some kind.pattern) {s u : Text} :
    (r.splitSkipped (s ++ u)).1 = s ↔ kind.drop (s ++ u) = u := by
  have hparts := splitSkipped_append_drop h (s ++ u)
  constructor
  · intro hs
    rw [hs] at hparts
    exact List.append_cancel_left hparts
  · intro hu
    rw [hu] at hparts
    exact List.append_cancel_right hparts

/-- What a revision that changes a text puts behind the text that is skipped. -/
theorem exists_written (hlines : r.header = some lines) (hsound : r.Sound)
    (hg : r.grammar.ClosesPlainly) {new : Revision} (h : r.revise t = .ok new)
    (hchange : new.content ≠ t) :
    ∃ u blanks : Text, new.content = (r.splitSkipped t).1 ++ u ∧ blanks.isAllBlank ∧
      r.grammar.leading u = .ok (linesText (dominant t) lines ++ blanks) := by
  obtain ⟨skipped, body, comment, hsplit, -, ⟨-, -, rfl⟩ | ⟨-, inner, hinner, rfl⟩⟩ :=
    exists_of_revise h
  · exact absurd rfl hchange
  · rw [headerText?_of_header hlines, replaceHeader] at hinner
    cases hlay : layOut r.grammar (linesText (dominant t) lines)
        (body.drop (r.replaceable comment).length) with
    | error cause => simp [hlay, Except.map] at hinner
    | ok written =>
      rw [hlay, Except.map, Except.ok.injEq] at hinner
      subst hinner
      obtain ⟨blanks, -, hblanks, -, -, hleading⟩ :=
        (hsound.proper hlines).exists_leading_written hg hlay
      exact ⟨_, blanks, by rw [hsplit], hblanks, hleading⟩

/-- Where a revision changes a text, the header is found right behind what was skipped before, and
the same is skipped again exactly if that ends in front of what was written. -/
theorem skips_again_iff {expression : Text} {keywords : List Text} {new : Revision}
    (hl : l ∈ Language.builtIn) (hskip : l.skip = some expression)
    (hrule : ofLanguage l (some lines) keywords = .ok r) (hsound : r.Sound)
    (h : r.revise t = .ok new) (hchange : new.content ≠ t) :
    ∃ (kind : Language.Preamble) (u blanks : Text), kind.expression = expression ∧
      new.content = (r.splitSkipped t).1 ++ u ∧ blanks.isAllBlank ∧
      r.grammar.leading u = .ok (linesText (dominant t) lines ++ blanks) ∧
      ((r.splitSkipped new.content).1 = (r.splitSkipped t).1 ↔
        kind.EndsBefore (r.splitSkipped t).1 u) := by
  obtain ⟨kind, rfl⟩ := Language.exists_expression_builtIn hl hskip
  rw [ofLanguage_of_expression hskip, Except.ok.injEq] at hrule
  have hgrammar : r.grammar = l.grammar := by rw [← hrule]
  have hpattern : r.skip = some kind.pattern := by rw [← hrule]
  have hg : r.grammar.ClosesPlainly :=
    hgrammar ▸ Language.closesPlainly (Language.hasPlainTokens_builtIn l hl)
  obtain ⟨hstart, hend⟩ := Language.regions_of_skip_builtIn l hl _ hskip
  obtain ⟨u, blanks, hcontent, hblanks, hleading⟩ :=
    exists_written (by rw [← hrule]) hsound hg h hchange
  refine ⟨kind, u, blanks, rfl, hcontent, hblanks, hleading, ?_⟩
  have hcomment := exists_commentToken_of_leading (hgrammar ▸ hstart) (hgrammar ▸ hend) hleading
    (by simp [linesText_ne_nil])
  rw [hgrammar, Language.commentTokens_builtIn hl hskip] at hcomment
  have hdrop := congrArg kind.drop (splitSkipped_append_drop hpattern t)
  rw [hcontent, splitSkipped_fst_eq_iff hpattern, kind.drop_append_iff hdrop hcomment]

/-- Scripts with `#` comments and a header of one line. -/
def scriptRule : Rule :=
  ⟨Language.builtIn[12].grammar, some Language.Preamble.interpreterLine.pattern,
    some ["# H".toList], []⟩

theorem ofLanguage_script :
    ofLanguage Language.builtIn[12] (some ["# H".toList]) [] = .ok scriptRule :=
  ofLanguage_of_expression rfl _ _

theorem sound_scriptRule : scriptRule.Sound where
  valid := by cbv
  notBlank := by decide
  unbroken := by decide

/-- Behind a first line that is ended, a header keeps its place. -/
theorem skips_again_script :
    scriptRule.revise "#!/bin/sh\ncode\n".toList =
        .ok ⟨.inserted, "#!/bin/sh\n# H\ncode\n".toList⟩ ∧
      (scriptRule.splitSkipped "#!/bin/sh\n# H\ncode\n".toList).1 = "#!/bin/sh\n".toList := by
  have hrun : scriptRule.revise "#!/bin/sh\ncode\n".toList =
      .ok ⟨.inserted, "#!/bin/sh\n# H\ncode\n".toList⟩ := by cbv
  have hsplit : (scriptRule.splitSkipped "#!/bin/sh\ncode\n".toList).1 = "#!/bin/sh\n".toList := by
    cbv
  have hl : Language.builtIn[12] ∈ Language.builtIn := List.getElem_mem _
  obtain ⟨kind, u, blanks, hkind, hcontent, -, -, hiff⟩ :=
    skips_again_iff hl rfl ofLanguage_script sound_scriptRule hrun (by decide)
  obtain rfl : kind = .interpreterLine := by
    cases kind <;> first | rfl | exact absurd hkind (by decide)
  rw [hsplit, Language.Preamble.EndsBefore, if_neg (by decide)] at hiff
  have hends : EndsLine "#!/bin/sh\n".toList u := ⟨by decide, by simp [CutsPair]⟩
  exact ⟨hrun, hiff.mpr hends⟩

/-- A first line that is not ended takes up the header. -/
theorem not_skips_again : ¬ ∀ (l : Language) (expression : Text) (lines : List Text) (r : Rule)
    (t : Text) (new : Revision), l ∈ Language.builtIn → l.skip = some expression →
    ofLanguage l (some lines) [] = .ok r → r.Sound → r.revise t = .ok new → new.content ≠ t →
    (r.splitSkipped new.content).1 = (r.splitSkipped t).1 := by
  intro h
  have hrun : scriptRule.revise "#!/bin/sh".toList = .ok ⟨.inserted, "#!/bin/sh# H\n".toList⟩ := by
    cbv
  have hsame := h _ _ _ _ _ _ (List.getElem_mem _) rfl ofLanguage_script sound_scriptRule hrun
    (by decide)
  have hbefore : (scriptRule.splitSkipped "#!/bin/sh".toList).1 = "#!/bin/sh".toList := by cbv
  have hafter : (scriptRule.splitSkipped "#!/bin/sh# H\n".toList).1 = "#!/bin/sh# H\n".toList := by
    cbv
  exact absurd (hafter.symm.trans (hsame.trans hbefore)) (by decide)

end Header.Rule
end Masthead
