import Mathlib
import Masthead.Header.Document
import Masthead.Proofs.Header.Revision

/-!
# Chains of revisions

A text is revised again and again, each time to give it a header or to remove one. Headers given
without a gate do not pile up: the last one stands in front of what was behind the first comment. A
comment that the gate protects ends the text, whatever the chain does above it.
-/
namespace Masthead.Header
open Text LineEnding Comment

/-- Revisions of held documents lead from `t` to a text; `last` is the rule of the last one that
succeeded. A revision that fails leaves the text as it was. -/
inductive Chain (l : Language) (keywords : List Text) (Allowed : Rule → Prop) (t : Text) :
    Option Rule → Text → Prop
  | start : Chain l keywords Allowed t none t
  | success {last : Option Rule} {u : Text} {path : Path} {header : Option (List Text)} {r : Rule}
      {new : Revision} (before : Chain l keywords Allowed t last u)
      (rule : Rule.ofLanguage l header keywords = .ok r) (allowed : Allowed r)
      (run : Document.reviseContent ⟨path, .held u, r⟩ = .ok new) :
      Chain l keywords Allowed t (some r) new.content
  | failure {last : Option Rule} {u : Text} {path : Path} {header : Option (List Text)} {r : Rule}
      {cause : DocumentError} (before : Chain l keywords Allowed t last u)
      (rule : Rule.ofLanguage l header keywords = .ok r) (allowed : Allowed r)
      (run : Document.reviseContent ⟨path, .held u, r⟩ = .error cause) :
      Chain l keywords Allowed t last u

theorem revise_of_reviseContent {path : Path} {u : Text} {r : Rule} {new : Revision}
    (h : Document.reviseContent ⟨path, .held u, r⟩ = .ok new) : r.revise u = .ok new := by
  cases hr : r.revise u with
  | error cause => simp [Document.reviseContent, Document.reviseText, hr, Except.mapError] at h
  | ok revision => simpa [Document.reviseContent, Document.reviseText, hr, Except.mapError] using h

/-- The leading comment of `u` is the header and blanks, and `core` comes next but for blanks. -/
def Headed (g : Grammar) (lines : List Text) (core u : Text) : Prop :=
  ∃ e blanks rest, u = linesText e lines ++ blanks ++ rest ∧ blanks.isAllBlank ∧
    rest.trimStart = core ∧ g.leading u = .ok (linesText e lines ++ blanks)

section Ungated

variable {r : Rule} {lines : List Text} {comment u : Text} {new : Revision}

theorem headed_of_revise (hsound : r.Sound) (hlines : r.header = some lines) (hskip : r.skip = none)
    (hkeywords : r.keywords = []) (hplain : r.grammar.ClosesPlainly)
    (hc : r.grammar.leading u = .ok comment) (h : r.revise u = .ok new) :
    Headed r.grammar lines (trimStart (u.drop comment.length)) new.content := by
  obtain ⟨hcomment, rfl⟩ | ⟨-, written, hlay, rfl⟩ := Rule.revise_cases_of_header hskip hlines hc h
  · rw [← List.append_nil (linesText _ _)] at hcomment
    obtain ⟨rest, hrest⟩ := leading_isPrefix hc
    exact ⟨dominant u, [], rest, by rw [hcomment, hrest], rfl, by rw [← hrest, List.drop_left],
      by rw [hcomment, hc]⟩
  · obtain ⟨blanks, rest, hblanks, hrest, htext, hleading⟩ :=
      (hsound.proper hlines).exists_leading_written hplain hlay
    rw [Rule.behind_of_keywords_eq_nil hkeywords] at hrest
    exact ⟨dominant u, blanks, rest, htext, hblanks, hrest, hleading⟩

end Ungated

namespace Chain

variable {l : Language} {keywords : List Text} {t u : Text} {last : Option Rule}

/-- Behind the header of the last revision stands what was behind the first comment. -/
theorem exists_headed (hplain : l.hasPlainTokens) (hskip : l.skip.getD [] = [])
    (h : Chain l [] (fun r => r.Sound ∧ r.header.isSome) t last u) :
    last = none ∧ u = t ∨ ∃ r ∈ last, ∃ lines ∈ r.header, ∃ comment,
      l.grammar.leading t = .ok comment ∧
        Headed l.grammar lines (trimStart (t.drop comment.length)) u := by
  induction h with
  | start => exact .inl ⟨rfl, rfl⟩
  | failure _ _ _ _ ih => exact ih
  | @success last u path header r new before rule allowed run ih =>
    obtain ⟨hsound, hheader⟩ := allowed
    obtain ⟨lines, hlines⟩ := Option.isSome_iff_exists.mp hheader
    have hrun := revise_of_reviseContent run
    rw [Rule.ofLanguage_eq hskip, Except.ok.injEq] at rule
    subst rule
    have hstep : ∀ {comment : Text}, l.grammar.leading u = .ok comment →
        Headed l.grammar lines (trimStart (u.drop comment.length)) new.content := fun hc =>
      headed_of_revise hsound hlines rfl rfl (Language.closesPlainly hplain) hc hrun
    obtain ⟨comment, hc, -⟩ := Rule.revise_cases rfl hrun
    refine .inr ⟨_, rfl, lines, hlines, ?_⟩
    rcases ih with ⟨-, rfl⟩ | ⟨_, -, _, -, first, hfirst, hheaded⟩
    · exact ⟨comment, hc, hstep hc⟩
    · obtain ⟨e, blanks, rest, htext, -, hrest, hleading⟩ := hheaded
      refine ⟨first, hfirst, ?_⟩
      have := hstep hleading
      rwa [htext, List.drop_left, hrest] at this

/-- Headers do not pile up and no text is lost: behind the last header stands what was behind the
leading comment of the first text, from its first character on that is no blank. -/
theorem exists_content_eq (hplain : l.hasPlainTokens) (hskip : l.skip.getD [] = []) {r : Rule}
    (h : Chain l [] (fun r => r.Sound ∧ r.header.isSome) t (some r) u) :
    ∃ lines e blanks comment, r.header = some lines ∧ blanks.isAllBlank ∧
      l.grammar.leading t = .ok comment ∧
      u = linesText e lines ++ blanks ++ trimStart (t.drop comment.length) := by
  rcases h.exists_headed hplain hskip with ⟨hnone, -⟩ | ⟨r', hr, lines, hlines, first, hc, hheaded⟩
  · simp at hnone
  · obtain rfl : r = r' := by simpa using hr
    obtain ⟨e, blanks, rest, rfl, hblanks, hcore, -⟩ := hheaded
    obtain ⟨between, hbetween, hrest⟩ := exists_append_trimStart rest
    refine ⟨lines, e, blanks ++ between, first, hlines, by simp [hblanks, hbetween], hc, ?_⟩
    rw [← hcore]
    conv_lhs => rw [hrest]
    simp

end Chain

/-- Two headers are given to a text with a comment, and only the second one is left. -/
theorem content_eq_of_two_headers :
    ∃ lines e blanks comment, some ["// B".toList] = some lines ∧ isAllBlank blanks ∧
      slashed.grammar.leading "// old\n\ncode\n".toList = .ok comment ∧
      "// B\ncode\n".toList =
        linesText e lines ++ blanks ++
          trimStart ("// old\n\ncode\n".toList.drop comment.length) := by
  have first : Document.reviseContent ⟨Path.ofText "a.go".toList, .held "// old\n\ncode\n".toList,
      slashedRule (some ["// A".toList]) []⟩ = .ok ⟨.replaced, "// A\ncode\n".toList⟩ := by cbv
  have second : Document.reviseContent ⟨Path.ofText "a.go".toList, .held "// A\ncode\n".toList,
      slashedRule (some ["// B".toList]) []⟩ = .ok ⟨.replaced, "// B\ncode\n".toList⟩ := by cbv
  have hfirst : (slashedRule (some ["// A".toList]) []).Sound :=
    sound_slashedRule _ (by cbv) (by decide) (by decide)
  have hsecond : (slashedRule (some ["// B".toList]) []).Sound :=
    sound_slashedRule _ (by cbv) (by decide) (by decide)
  exact Chain.exists_content_eq (by decide) rfl
    (.success (.success .start rfl ⟨hfirst, rfl⟩ first) rfl ⟨hsecond, rfl⟩ second)

section Gated

variable {g : Grammar} {t u u' : Text}

/-- Leading comments, one below the other, with the core of `t` at the bottom. -/
inductive Stacked (g : Grammar) (t : Text) : Text → Prop
  | bottom {u : Text} (core : u.trimStart = t.trimStart) : Stacked g t u
  | above {comment rest : Text} (found : g.leading (comment ++ rest) = .ok comment)
      (ne : comment ≠ []) (below : Stacked g t rest) : Stacked g t (comment ++ rest)

theorem Stacked.of_trimStart_eq (h : Stacked g t u) (hcore : u.trimStart = u'.trimStart) :
    Stacked g t u' := by
  cases h with
  | bottom core => exact .bottom (hcore ▸ core)
  | @above comment rest found ne below =>
    have hfound := leading_of_trimStart_eq hcore found
    have hnot := not_isAllBlank_leading found ne
    have htext : u'.takeWhile isBlank ++ comment.trimStart ++ rest = u' := by
      rw [List.append_assoc, ← trimStart_append_of_not_isAllBlank hnot, hcore]
      exact takeWhile_append_trimStart u'
    have hne := trimStart_ne_nil hnot
    rw [if_neg ne] at hfound
    generalize u'.takeWhile isBlank = blanks at hfound htext
    subst htext
    exact .above hfound (by simp [hne]) below

theorem Stacked.suffix (h : Stacked g t u) : t.trimStart <:+ u := by
  induction h with
  | @bottom u core => exact core ▸ List.dropWhile_suffix _
  | above _ _ _ ih => exact ih.trans (List.suffix_append _ _)

variable {keywords : List Text} {r : Rule}

/-- What gives way to a header is a comment of the stack, not the protected text. -/
theorem Stacked.behind (hkeywords : r.keywords = normalizeKeywords keywords)
    (hgate : ∀ comment, g.leading t = .ok comment → comment ≠ [] → r.passesGate comment = false)
    (h : Stacked g t u) {comment : Text} (hc : g.leading u = .ok comment) :
    Stacked g t (r.behind comment u) := by
  by_cases hgives : r.passesGate comment = true ∧ comment ≠ []
  · obtain ⟨hpasses, hne⟩ := hgives
    cases h with
    | bottom core =>
      have hfound := leading_of_trimStart_eq core hc
      have hcomment := trimStart_ne_nil (not_isAllBlank_leading hc hne)
      rw [if_neg hne] at hfound
      have hfails := hgate _ hfound (by simp [hcomment])
      rw [Rule.passesGate_blanks_append hkeywords (isAllBlank_takeWhile t),
        Rule.passesGate_trimStart hkeywords, hpasses] at hfails
      simp at hfails
    | @above comment' rest found ne below =>
      obtain rfl : comment' = comment := by simpa using found.symm.trans hc
      simpa [Rule.behind, Rule.replaceable, hpasses] using below
  · have hnil : r.replaceable comment = [] := by
      unfold Rule.replaceable
      split <;> simp_all
    simpa [Rule.behind, hnil] using h

theorem Stacked.of_revise (hskip : r.skip = none)
    (hkeywords : r.keywords = normalizeKeywords keywords) (hplain : r.grammar.ClosesPlainly)
    (hsound : r.Sound)
    (hgate : ∀ comment, r.grammar.leading t = .ok comment → comment ≠ [] →
      r.passesGate comment = false)
    (h : Stacked r.grammar t u) {new : Revision} (hrun : r.revise u = .ok new) :
    Stacked r.grammar t new.content := by
  obtain ⟨comment, hc, hcases⟩ := Rule.revise_cases hskip hrun
  have hbehind := h.behind hkeywords hgate hc
  rcases hcases with ⟨-, -, rfl⟩ | ⟨-, rfl⟩ | ⟨lines, written, hlines, -, hlay, rfl⟩
  · exact h
  · exact hbehind
  · have hproper := hsound.proper hlines
    obtain ⟨blanks, rest, -, hrest, htext, hleading⟩ := hproper.exists_leading_written hplain hlay
    have hne : linesText (dominant u) lines ++ blanks ≠ [] := by simp [linesText_ne_nil]
    show Stacked r.grammar t (written ++ r.behind comment u)
    rw [htext] at hleading ⊢
    exact .above hleading hne (hbehind.of_trimStart_eq hrest.symm)

end Gated

/-- A text whose leading comment does not pass the gate ends every text of the chain, from its first
character on that is no blank. -/
theorem Chain.trimStart_suffix {l : Language} {keywords : List Text} {t u : Text}
    {header : Option (List Text)} {r : Rule} {last : Option Rule} (hplain : l.hasPlainTokens)
    (hskip : l.skip.getD [] = []) (hrule : Rule.ofLanguage l header keywords = .ok r)
    (hgate : ¬ ∃ comment, l.grammar.leading t = .ok comment ∧ comment ≠ [] ∧ r.passesGate comment)
    (h : Chain l keywords Rule.Sound t last u) : t.trimStart <:+ u := by
  rw [Rule.ofLanguage_eq hskip, Except.ok.injEq] at hrule
  subst hrule
  have hstack : Stacked l.grammar t u := by
    induction h with
    | start => exact .bottom rfl
    | failure _ _ _ _ ih => exact ih
    | success before rule allowed run ih =>
      rw [Rule.ofLanguage_eq hskip, Except.ok.injEq] at rule
      subst rule
      refine ih.of_revise rfl rfl (Language.closesPlainly hplain) allowed ?_
        (revise_of_reviseContent run)
      intro comment hc hne
      exact Bool.eq_false_iff.mpr fun hpasses => hgate ⟨comment, hc, hne, hpasses⟩
  exact hstack.suffix

/-- A header with the keyword is put above a comment without it and gives way to another one. -/
theorem suffix_of_header_replaced :
    trimStart "// other\ncode\n".toList <:+ "// H\n\n// other\ncode\n".toList := by
  have first : Document.reviseContent ⟨Path.ofText "a.go".toList, .held "// other\ncode\n".toList,
      slashedRule (some ["// Copyright".toList]) ["copyright".toList]⟩ =
      .ok ⟨.inserted, "// Copyright\n\n// other\ncode\n".toList⟩ := by cbv
  have second : Document.reviseContent ⟨Path.ofText "a.go".toList,
      .held "// Copyright\n\n// other\ncode\n".toList,
      slashedRule (some ["// H".toList]) ["copyright".toList]⟩ =
      .ok ⟨.replaced, "// H\n\n// other\ncode\n".toList⟩ := by cbv
  have hfirst : (slashedRule (some ["// Copyright".toList]) ["copyright".toList]).Sound :=
    sound_slashedRule _ (by cbv) (by decide) (by decide)
  have hsecond : (slashedRule (some ["// H".toList]) ["copyright".toList]).Sound :=
    sound_slashedRule _ (by cbv) (by decide) (by decide)
  have hrule : Rule.ofLanguage slashed none ["copyright".toList] =
      .ok (slashedRule none ["copyright".toList]) := rfl
  refine Chain.trimStart_suffix (by decide) rfl hrule ?_
    (.success (.success .start rfl hfirst first) rfl hsecond second)
  have hfound : slashed.grammar.leading "// other\ncode\n".toList =
      .ok "// other\n".toList := by cbv
  have hfails : (slashedRule none ["copyright".toList]).passesGate "// other\n".toList = false := by
    cbv
  rintro ⟨comment, hc, -, hpasses⟩
  obtain rfl : "// other\n".toList = comment := by simpa using hfound.symm.trans hc
  rw [hfails] at hpasses
  exact Bool.false_ne_true hpasses

end Masthead.Header
