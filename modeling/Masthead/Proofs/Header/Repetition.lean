import Mathlib
import Masthead.Proofs.Header.Revision

/-!
# Giving a text its header twice

The second time, the header that the first revision wrote is found, and behind it the blanks that
the scan keeps. If there are none, the header is the desired one and nothing is done. Otherwise a
rule without keywords replaces the header, and so loses these blanks or lays them out again, while a
gate that the header does not pass lets the rule insert it once more.
-/
namespace Masthead
open Text LineEnding Comment

namespace Comment

theorem keptBlanks_one_text_append {e : LineEnding} {t : Text}
    (hpair : ¬ (e = .cr ∧ t.head? = some '\n')) : keptBlanks 1 (e.text ++ t) = e.text := by
  have hread := takeBlanks_ending_append (fun hcr hlf => hpair ⟨hcr, hlf⟩) 0
  simp [keptBlanks, hread]

theorem exists_leading_iff {g : Grammar} {t u : Text} (h : t.trimStart = u.trimStart) :
    (∃ comment, g.leading t = .ok comment ∧ comment ≠ []) ↔
      ∃ comment, g.leading u = .ok comment ∧ comment ≠ [] := by
  have hone : ∀ {t u : Text}, t.trimStart = u.trimStart →
      (∃ comment, g.leading t = .ok comment ∧ comment ≠ []) →
        ∃ comment, g.leading u = .ok comment ∧ comment ≠ [] := by
    rintro t u h ⟨comment, hc, hne⟩
    have hu := leading_of_trimStart_eq h hc
    rw [if_neg hne] at hu
    exact ⟨_, hu, by simp [trimStart_ne_nil (not_isAllBlank_leading hc hne)]⟩
  exact ⟨hone h, hone h.symm⟩

end Comment

namespace Header

variable {g : Grammar} {e : LineEnding} {lines : List Text} {t following written : Text}

/-- A header in front of the text is found again without any blanks behind it. -/
def Tight (g : Grammar) (lines : List Text) (following : Text) : Prop :=
  endsBlank lines ∨
    g.leading following = .ok [] ∧ (following = [] ∨ following.firstLine.isAllBlank = false)

theorem Unbroken.keptBlanks_eq_nil_iff (h : Unbroken lines) (hne : lines ≠ []) {gap : Text}
    (hout : layOut g (linesText e lines) following = .ok (linesText e lines ++ gap)) :
    keptBlanks (if endsBlank lines then 0 else 1) (gap ++ following) = [] ↔
      Tight g lines following := by
  cases hends : endsBlank lines with
  | true => simp [Tight, hends]
  | false =>
    simp only [Bool.false_eq_true, if_false, keptBlanks_one_eq_nil_iff, Tight, hends, false_or]
    rcases h.layOut_cases hne hout with ⟨hgap, hapart⟩ | ⟨hgap, -, comment, hc, hcomment⟩
    · obtain rfl : gap = [] := by simpa using hgap
      rw [List.nil_append]
      rcases hapart with ⟨rest, rfl⟩ | hb | hnil
      · simp [firstLine_text_append, text_ne_nil]
      · simp [hends] at hb
      · simp [hnil]
    · obtain rfl : gap = e.text := List.append_cancel_left hgap
      simp [firstLine_text_append, text_ne_nil, hc, hcomment]

theorem Unbroken.layOut_eq_append_iff (h : Unbroken lines) (hne : lines ≠ [])
    (hends : endsBlank lines = false) {blanks : Text} (hblanks : blanks ≠ []) :
    layOut g (linesText e lines) following = .ok (linesText e lines ++ blanks) ↔
      blanks = e.text ∧ ¬ e.text <+: following ∧
        ∃ comment, g.leading following = .ok comment ∧ comment ≠ [] := by
  constructor
  · intro hout
    rcases h.layOut_cases hne hout with ⟨hnil, -⟩ | ⟨hgap, hcomment⟩
    · simp [hblanks] at hnil
    · exact ⟨List.append_cancel_left hgap, hcomment⟩
  · rintro ⟨rfl, hstart, comment, hc, hcomment⟩
    have hsuffix : ¬ e.text ++ e.text <:+ linesText e lines := by
      intro hs
      simp [h.endsBlank_of_suffix hne hs] at hends
    rw [← List.isPrefixOf_iff_prefix] at hstart
    rw [← List.isSuffixOf_iff_suffix] at hsuffix
    simp [h.layOut_linesText, hstart, hsuffix, hc, hcomment, Except.map]

/-- A line ending taken off a text is laid out again, if a comment follows and no other line ending
comes next. -/
theorem Unbroken.layOut_below_iff (h : Unbroken lines) (hne : lines ≠ [])
    (hends : endsBlank lines = false) (below : Text) :
    layOut g (linesText e lines) below = .ok (linesText e lines ++ e.text) ↔
      (∃ comment, g.leading (e.text ++ below) = .ok comment ∧ comment ≠ []) ∧
        ¬ e.text ++ e.text <+: e.text ++ below := by
  rw [h.layOut_eq_append_iff hne hends e.text_ne_nil, List.prefix_append_right_inj,
    exists_leading_iff (trimStart_append e.isAllBlank_text below)]
  simp [and_comm]

/-- Laying the header out again gives back the blanks that were kept, if a comment follows behind
less than two line endings. -/
theorem Unbroken.layOut_again_iff (h : Unbroken lines) (hne : lines ≠ [])
    (hpair : ∀ s, s <:+ following → ¬ (e = .cr ∧ s.head? = some '\n')) {gap kept rest : Text}
    (hout : layOut g (linesText e lines) following = .ok (linesText e lines ++ gap))
    (hkept : kept = keptBlanks (if endsBlank lines then 0 else 1) (gap ++ following))
    (hkeptne : kept ≠ []) (htext : gap ++ following = kept ++ rest) :
    layOut g (linesText e lines) rest = .ok (linesText e lines ++ kept) ↔
      (∃ comment, g.leading following = .ok comment ∧ comment ≠ []) ∧
        ¬ e.text ++ e.text <+: following := by
  have hends : endsBlank lines = false := by
    cases hends : endsBlank lines with
    | false => rfl
    | true => simp [hkept, hends] at hkeptne
  rw [hends, if_neg (by simp)] at hkept
  rcases h.layOut_cases hne hout with ⟨hgap, hapart⟩ | ⟨hgap, hstart, hcomment⟩
  · obtain rfl : gap = [] := by simpa using hgap
    rw [List.nil_append] at hkept htext
    by_cases hstart : e.text <+: following
    · obtain ⟨below, rfl⟩ := hstart
      rw [keptBlanks_one_text_append (hpair below (List.suffix_append _ _))] at hkept
      subst hkept
      obtain rfl : below = rest := List.append_cancel_left htext
      exact h.layOut_below_iff hne hends below
    · have hc : g.leading following = .ok [] := by simpa [hstart, hends] using hapart
      rw [h.layOut_eq_append_iff hne hends hkeptne]
      constructor
      · rintro ⟨rfl, -⟩
        exact absurd ⟨rest, htext.symm⟩ hstart
      · rintro ⟨⟨comment, hc', hcomment⟩, -⟩
        obtain rfl : [] = comment := by simpa using hc.symm.trans hc'
        exact absurd rfl hcomment
  · obtain rfl : gap = e.text := List.append_cancel_left hgap
    rw [keptBlanks_one_text_append (hpair following List.suffix_rfl)] at hkept
    subst hkept
    obtain rfl : following = rest := List.append_cancel_left htext
    have hdouble : ¬ e.text ++ e.text <+: following :=
      fun hd => hstart ((List.prefix_append _ _).trans hd)
    rw [h.layOut_eq_append_iff hne hends hkeptne]
    simp [hstart, hcomment, hdouble]

/-- What the second revision reads where the first one wrote the header before `following`: the
header, the blanks kept with it, and the rest. -/
structure Refound (g : Grammar) (e : LineEnding) (lines : List Text)
    (following content kept rest : Text) : Prop where
  text : content = linesText e lines ++ kept ++ rest
  dominant : dominant content = e
  leading : g.leading content = .ok (linesText e lines ++ kept)
  blank : kept.isAllBlank
  tight : kept = [] ↔ Tight g lines following
  again : kept ≠ [] → (layOut g (linesText e lines) rest = .ok (linesText e lines ++ kept) ↔
    (∃ below, g.leading following = .ok below ∧ below ≠ []) ∧ ¬ e.text ++ e.text <+: following)

section Uniform

variable (huniform : Uniform t)
include huniform

theorem not_pair_of_uniform (hsuffix : following <:+ t) :
    ¬ (dominant t = .cr ∧ following.head? = some '\n') := by
  rintro ⟨hcr, hlf⟩
  exact lf_notMem_of_dominant_eq_cr huniform hcr
    (hsuffix.subset (List.mem_of_mem_head? hlf))

theorem dominant_written (h : Unbroken lines) (hsuffix : following <:+ t) {gap : Text}
    (hgap : gap = [] ∨ gap = (dominant t).text) :
    dominant (linesText (dominant t) lines ++ gap ++ following) = dominant t := by
  have hcr := h.cr_notMem_linesText_lf
  rw [h.linesText_eq_respell]
  rcases hgap with rfl | rfl
  · rw [List.append_nil]
    exact dominant_respell_append huniform hsuffix hcr (lf_mem_linesText_lf lines)
  · have := dominant_respell_append huniform hsuffix (s := linesText .lf lines ++ ['\n'])
      (by simp [hcr]) (by simp)
    rwa [respell_append hcr, respell_lf_cons, respell_nil, List.append_nil] at this

theorem Proper.exists_refound (h : Proper g lines) (hg : g.ClosesPlainly)
    (hsuffix : following <:+ t)
    (hout : layOut g (linesText (dominant t) lines) following = .ok written) :
    ∃ kept rest, Refound g (dominant t) lines following (written ++ following) kept rest := by
  obtain ⟨gap, hgap, rfl, hapart⟩ := h.unbroken.apart_of_layOut h.ne_nil hout
  have hpair : ¬ (dominant t = .cr ∧ (gap ++ following).head? = some '\n') := by
    rcases hgap with rfl | rfl
    · exact not_pair_of_uniform huniform hsuffix
    · rintro ⟨hcr, hlf⟩
      simp [hcr, LineEnding.text] at hlf
  have hleading := h.leading_append hg hpair hapart
  obtain ⟨rest, hrest⟩ := leading_isPrefix hleading
  rw [List.append_assoc] at hrest
  have htext := (List.append_cancel_left hrest).symm
  exact ⟨_, rest,
    { text := by rw [List.append_assoc, List.append_assoc, hrest]
      dominant := dominant_written huniform h.unbroken hsuffix hgap
      leading := by rw [List.append_assoc, hleading]
      blank := isAllBlank_keptBlanks _ _
      tight := h.unbroken.keptBlanks_eq_nil_iff h.ne_nil hout
      again := fun hne => h.unbroken.layOut_again_iff h.ne_nil
        (fun s hs => not_pair_of_uniform huniform (hs.trans hsuffix)) hout rfl hne htext }⟩

end Uniform

namespace Rule

variable {r : Rule} {comment : Text}

/-- In place of a header and blanks the header is written again: nothing changes exactly if there
are no blanks, or they are laid out with it. -/
theorem revise_eq_unchanged_iff (hskip : r.skip = none) (hlines : r.header = some lines)
    (hkeywords : r.keywords = []) {kept rest : Text}
    (h : Refound r.grammar e lines following t kept rest) :
    r.revise t = .ok ⟨.unchanged, t⟩ ↔ Tight r.grammar lines following ∨
      (∃ below, r.grammar.leading following = .ok below ∧ below ≠ []) ∧
        ¬ e.text ++ e.text <+: following := by
  have hc := h.leading
  rw [← h.tight]
  by_cases hkept : kept = []
  · rw [hkept, List.append_nil, ← h.dominant] at hc
    simp [revise_of_desired hskip hlines hc, hkept]
  · have hother : linesText (dominant t) lines ≠ linesText e lines ++ kept := by
      simp [h.dominant, hkept]
    have hbehind : r.behind (linesText e lines ++ kept) t = rest := by
      rw [behind_of_keywords_eq_nil hkeywords, h.text, List.drop_left]
    rw [revise_of_other hskip hlines hc hother, hbehind, h.dominant, ← h.again hkept, h.text]
    cases layOut r.grammar (linesText e lines) rest with
    | error cause => simp [Except.map, hkept]
    | ok written =>
      simp only [Except.map, Except.ok.injEq, Revision.mk.injEq, List.append_left_inj, hkept,
        false_or]
      constructor
      · exact And.right
      · intro hwritten
        simp [hwritten]

/-- The second revision changes nothing exactly if the text had the header before, or the header is
found again without blanks, or the blanks found with it are laid out again in front of a comment. -/
theorem revise_twice_iff {l : Language} {first : Revision} (hplain : l.hasPlainTokens)
    (hskip : l.skip.getD [] = []) (hrule : ofLanguage l (some lines) [] = .ok r) (hsound : r.Sound)
    (huniform : Uniform t) (hc : r.grammar.leading t = .ok comment)
    (hfirst : r.revise t = .ok first) :
    r.revise first.content = .ok ⟨.unchanged, first.content⟩ ↔
      comment = linesText (dominant t) lines ∨ Tight r.grammar lines (t.drop comment.length) ∨
        (∃ below, r.grammar.leading (t.drop comment.length) = .ok below ∧ below ≠ []) ∧
          ¬ (dominant t).text ++ (dominant t).text <+: t.drop comment.length := by
  rw [ofLanguage_eq hskip, Except.ok.injEq] at hrule
  subst hrule
  obtain ⟨rfl, rfl⟩ | ⟨hother, written, hlay, rfl⟩ := revise_cases_of_header rfl rfl hc hfirst
  · simp [hfirst]
  · rw [behind_of_keywords_eq_nil rfl] at hlay ⊢
    obtain ⟨kept, rest, hrefound⟩ := (hsound.proper rfl).exists_refound huniform
      (Language.closesPlainly hplain) (List.drop_suffix _ _) hlay
    rw [revise_eq_unchanged_iff rfl rfl rfl hrefound, or_iff_right (Ne.symm hother)]

/-- A header that was inserted above code is found again. -/
theorem revise_twice_code : (slashedRule (some ["// H".toList]) []).revise "// H\ncode\n".toList =
    .ok ⟨.unchanged, "// H\ncode\n".toList⟩ := by
  have hsound : (slashedRule (some ["// H".toList]) []).Sound :=
    sound_slashedRule _ (by cbv) (by decide) (by decide)
  have hfirst : (slashedRule (some ["// H".toList]) []).revise "code\n".toList =
      .ok ⟨.inserted, "// H\ncode\n".toList⟩ := by cbv
  have hc : slashed.grammar.leading "code\n".toList = .ok [] := by cbv
  have hiff := revise_twice_iff (l := slashed) (by decide) rfl rfl hsound ⟨.lf, by decide⟩ hc hfirst
  exact hiff.mpr (.inr (.inl (.inr ⟨hc, .inr (by decide)⟩)))

/-- A text of one style that starts with a line ending loses it to the second revision. -/
theorem not_revise_twice : ¬ ∀ (l : Language) (lines : List Text) (r : Rule) (t : Text)
    (first : Revision), l.hasPlainTokens → l.skip.getD [] = [] →
    ofLanguage l (some lines) [] = .ok r → r.Sound → Uniform t → r.revise t = .ok first →
    r.revise first.content = .ok ⟨.unchanged, first.content⟩ := by
  intro h
  have hsound : (slashedRule (some ["// H".toList]) []).Sound :=
    sound_slashedRule _ (by cbv) (by decide) (by decide)
  have hfirst : (slashedRule (some ["// H".toList]) []).revise "\ncode\n".toList =
      .ok ⟨.inserted, "// H\n\ncode\n".toList⟩ := by cbv
  have hsecond : (slashedRule (some ["// H".toList]) []).revise "// H\n\ncode\n".toList =
      .ok ⟨.replaced, "// H\ncode\n".toList⟩ := by cbv
  have hstays := h slashed _ _ _ _ (by decide) rfl rfl hsound ⟨.lf, by decide⟩ hfirst
  simpa using hsecond.symm.trans hstays

/-- Above a comment the header is inserted exactly if the comment is another one that fails the
gate. -/
theorem action_eq_inserted_iff (hskip : r.skip = none) (hlines : r.header = some lines)
    (hproper : Proper r.grammar lines) {new : Revision} (hc : r.grammar.leading t = .ok comment)
    (hne : comment ≠ []) (h : r.revise t = .ok new) :
    new.action = .inserted ↔
      linesText (dominant t) lines ≠ comment ∧ r.passesGate comment = false := by
  obtain ⟨hsame, rfl⟩ | ⟨hother, written, hlay, rfl⟩ := revise_cases_of_header hskip hlines hc h
  · simp [hsame]
  · cases hpasses : r.passesGate comment with
    | true =>
      have hgives : r.replaceable comment = comment := by simp [replaceable, hpasses]
      simp only [hgives, if_neg hne]
      split <;> simp
    | false =>
      have hstays : r.replaceable comment = [] := by simp [replaceable, hpasses]
      have hbehind : r.behind comment t = t := by simp [behind, hstays]
      obtain ⟨gap, -, rfl, -⟩ := hproper.unbroken.apart_of_layOut hproper.ne_nil hlay
      have hlonger : linesText (dominant t) lines ++ gap ++ t ≠ t := by
        rw [ne_eq, List.append_left_eq_self]
        simp [linesText_ne_nil]
      simp only [hbehind, hstays, if_neg hlonger, if_true, hother, not_false_eq_true, ne_eq,
        true_and]

/-- The second revision inserts the header once more exactly if the header fails the gate and is not
found again as it is desired. In a text of one style it is found so exactly if the text had the
header before, or the header is found without blanks behind it. -/
theorem inserted_twice_iff {l : Language} {keywords : List Text} {first second : Revision}
    (hplain : l.hasPlainTokens) (hskip : l.skip.getD [] = [])
    (hrule : ofLanguage l (some lines) keywords = .ok r) (hsound : r.Sound)
    (hc : r.grammar.leading t = .ok comment) (hfirst : r.revise t = .ok first)
    (hsecond : r.revise first.content = .ok second) :
    (second.action = .inserted ↔ r.passesGate (linesText (dominant t) lines) = false ∧
      r.grammar.leading first.content ≠ .ok (linesText (dominant first.content) lines)) ∧
    (Uniform t → (second.action = .inserted ↔
      r.passesGate (linesText (dominant t) lines) = false ∧
      comment ≠ linesText (dominant t) lines ∧ ¬ Tight r.grammar lines (r.behind comment t))) := by
  rw [ofLanguage_eq hskip, Except.ok.injEq] at hrule
  subst hrule
  have hproper := hsound.proper rfl
  have hg := Language.closesPlainly hplain
  obtain ⟨rfl, rfl⟩ | ⟨hother, written, hlay, rfl⟩ := revise_cases_of_header rfl rfl hc hfirst
  · obtain rfl : ⟨.unchanged, t⟩ = second := by simpa using hfirst.symm.trans hsecond
    simp [hc]
  · have hne : ∀ blanks, linesText (dominant t) lines ++ blanks ≠ [] := by
      simp [linesText_ne_nil]
    constructor
    · obtain ⟨blanks, rest, hblanks, -, htext, hleading⟩ := hproper.exists_leading_written hg hlay
      rw [action_eq_inserted_iff rfl rfl hproper hleading (hne blanks) hsecond,
        passesGate_append_blanks rfl hblanks, hleading, and_comm]
      exact and_congr_right fun _ => by rw [ne_comm, ne_eq, ne_eq, Except.ok.injEq]
    · intro huniform
      obtain ⟨kept, rest, hrefound⟩ :=
        hproper.exists_refound huniform hg (List.drop_suffix _ _) hlay
      have htight := hrefound.tight
      rw [behind, ← htight,
        action_eq_inserted_iff rfl rfl hproper hrefound.leading (hne kept) hsecond,
        passesGate_append_blanks rfl hrefound.blank, hrefound.dominant, and_comm]
      simp [Ne.symm hother]

/-- A header without the keyword is inserted again above a comment without it. -/
theorem inserted_twice_comment :
    (slashedRule (some ["// H".toList]) ["copyright".toList]).passesGate "// H\n".toList = false ∧
      slashed.grammar.leading "// H\n\n// other\ncode\n".toList ≠ .ok "// H\n".toList := by
  have hsound : (slashedRule (some ["// H".toList]) ["copyright".toList]).Sound :=
    sound_slashedRule _ (by cbv) (by decide) (by decide)
  have hfirst : (slashedRule (some ["// H".toList]) ["copyright".toList]).revise
      "// other\ncode\n".toList = .ok ⟨.inserted, "// H\n\n// other\ncode\n".toList⟩ := by cbv
  have hsecond : (slashedRule (some ["// H".toList]) ["copyright".toList]).revise
      "// H\n\n// other\ncode\n".toList =
      .ok ⟨.inserted, "// H\n\n// H\n\n// other\ncode\n".toList⟩ := by cbv
  have hc : slashed.grammar.leading "// other\ncode\n".toList = .ok "// other\n".toList := by cbv
  have hiff := inserted_twice_iff (l := slashed) (by decide) rfl rfl hsound hc hfirst hsecond
  exact hiff.1.mp rfl

/-- A gate does not keep a header without a keyword from being stacked. -/
theorem not_never_inserted_twice : ¬ ∀ (l : Language) (lines keywords : List Text) (r : Rule)
    (t : Text) (first second : Revision), l.hasPlainTokens → l.skip.getD [] = [] → keywords ≠ [] →
    (∀ keyword ∈ keywords, keyword.isAllBlank = false) →
    ofLanguage l (some lines) keywords = .ok r → r.Sound → r.revise t = .ok first →
    r.revise first.content = .ok second → second.action ≠ .inserted := by
  intro h
  have hsound : (slashedRule (some ["// H".toList]) ["copyright".toList]).Sound :=
    sound_slashedRule _ (by cbv) (by decide) (by decide)
  have hfirst : (slashedRule (some ["// H".toList]) ["copyright".toList]).revise
      "// other\ncode\n".toList = .ok ⟨.inserted, "// H\n\n// other\ncode\n".toList⟩ := by cbv
  have hsecond : (slashedRule (some ["// H".toList]) ["copyright".toList]).revise
      "// H\n\n// other\ncode\n".toList =
      .ok ⟨.inserted, "// H\n\n// H\n\n// other\ncode\n".toList⟩ := by cbv
  exact h slashed _ _ _ _ _ _ (by decide) rfl (by simp) (by decide) rfl hsound hfirst hsecond rfl

end Rule

end Header
end Masthead
