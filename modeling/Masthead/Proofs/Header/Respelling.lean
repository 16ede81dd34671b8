import Masthead.Proofs.Comment.Malformed
import Masthead.Proofs.Header.Frame

/-!
# Texts revised with another line ending

Where no token, keyword or header line holds a line break, a revision does the same to a text with
line feeds and to its respelling with another ending. A malformed comment is reported at the byte
counted from where it was looked for, which is the start of the text or of what stays behind the
header.
-/
namespace Masthead
open Text LineEnding Comment

namespace Text

variable {e : LineEnding} {t : Text}

theorem leadsToCased_respell (h : '\r' ∉ t) : leadsToCased (e.respell t) = leadsToCased t := by
  induction t, h using respell_induction with
  | nil => rfl
  | lf t h _ =>
    obtain ⟨c, rest, htext, hc, -⟩ := e.exists_text_eq_cons
    rw [respell_lf_cons, htext, List.cons_append,
      leadsToCased_of_isBlank (isBlank_of_isLineBreak hc), leadsToCased_of_isBlank (by decide)]
  | cons c t hc _ ih => rw [respell_cons hc, leadsToCased_cons, leadsToCased_cons, ih]

theorem cr_notMem_lowerBehind (h : '\r' ∉ t) (before : Text) : '\r' ∉ lowerBehind before t :=
  mt (mem_of_mem_lowerBehind (by decide)) h

theorem lower_respell (h : '\r' ∉ t) : lower (e.respell t) = e.respell (lower t) := by
  have hbehind : ∀ before, lowerBehind before (e.respell t) = e.respell (lowerBehind before t) := by
    induction t, h using respell_induction with
    | nil => exact fun _ => rfl
    | lf t _ ih =>
      intro before
      have hlf := @lowerBehind_blanks_append ['\n'] rfl (List.cons_ne_nil _ _) before t
      rw [respell_lf_cons, lowerBehind_blanks_append e.isAllBlank_text e.text_ne_nil, lower, ih,
        show '\n' :: t = ['\n'] ++ t from rfl, hlf]
      rfl
    | cons c t hc h ih =>
      intro before
      have hsame : lowerBetween before c (e.respell t) = lowerBetween before c t := by
        rw [lowerBetween, lowerBetween, leadsToCased_respell h]
      have hbetween : ∀ d ∈ lowerBetween before c t, isLineBreak d = false := by
        intro d hd
        by_contra hbreak
        rw [Bool.not_eq_false] at hbreak
        rw [eq_of_mem_lowerBetween (isBlank_of_isLineBreak hbreak) hd, hc] at hbreak
        cases hbreak
      have hcr : '\r' ∉ lowerBetween before c t := fun hm => by simpa [isLineBreak] using hbetween _ hm
      rw [respell_cons hc, lowerBehind_cons, lowerBehind_cons, hsame, ih, respell_append hcr,
        respell_eq_self hbetween]
  exact hbehind []

theorem contains_respell {needle : Text} (hn : ∀ c ∈ needle, isLineBreak c = false) (hne : needle ≠ [])
    (h : '\r' ∉ t) : contains needle (e.respell t) = contains needle t := by
  rw [contains, contains, splitAtFirst?_respell hn hne h, Option.isSome_map]

theorem length_le_bytes (t : Text) : t.length ≤ t.bytes := by
  induction t with
  | nil => exact le_rfl
  | cons c t ih =>
    have := c.utf8Size_pos
    rw [List.length_cons, bytes_cons]
    omega

end Text

/-- No token of the language holds a line break. -/
def Language.hasTokensInLine (l : Language) : Bool :=
  [l.lineComment, l.blockStart, l.blockEnd, l.regionStart, l.regionEnd].all
    (·.all fun token => token.all (!isLineBreak ·))

theorem Language.closesInLine {l : Language} (h : l.hasTokensInLine) : l.grammar.ClosesInLine := by
  intro pair hpair c hc
  have hend := l.blockEnd_eq_some hpair
  simp only [hasTokensInLine, hend, List.all_cons, Option.all_some, Bool.and_eq_true] at h
  simpa using List.all_eq_true.mp h.2.2.1 c hc

namespace Header

variable {g : Grammar} {e : LineEnding} {lines keywords : List Text} {t : Text}

theorem Unbroken.normalizeKeywords (h : Unbroken keywords) :
    Unbroken (normalizeKeywords keywords) := by
  intro keyword hkeyword c hc
  obtain ⟨given, hgiven, rfl⟩ := List.mem_map.mp (List.mem_filter.mp hkeyword).1
  by_contra hbreak
  rw [Bool.not_eq_false] at hbreak
  have hmem : c ∈ given := by
    have htrim : c ∈ trim given := mem_of_mem_lowerBehind (isBlank_of_isLineBreak hbreak) hc
    have hstart := (List.rdropWhile_prefix (p := isBlank) (trimStart given)).subset htrim
    exact (List.dropWhile_sublist _).subset hstart
  rw [h given hgiven c hmem] at hbreak
  cases hbreak

section LayOut

variable (h : Unbroken lines) (hg : g.ClosesInLine) {following : Text} (hf : '\r' ∉ following)
include h hf

theorem Unbroken.separates_respell :
    (e.text.isPrefixOf (e.respell following) ||
        (e.text ++ e.text).isSuffixOf (linesText e lines)) =
      (LineEnding.lf.text.isPrefixOf following ||
        (LineEnding.lf.text ++ LineEnding.lf.text).isSuffixOf (linesText .lf lines)) := by
  have hone : e.text = e.respell LineEnding.lf.text := by simp [LineEnding.text]
  have htwo : e.text ++ e.text = e.respell (LineEnding.lf.text ++ LineEnding.lf.text) := by
    simp [LineEnding.text]
  rw [Bool.eq_iff_iff]
  simp only [Bool.or_eq_true, List.isPrefixOf_iff_prefix, List.isSuffixOf_iff_suffix]
  rw [htwo, h.linesText_eq_respell e, respell_suffix_iff (by decide) h.cr_notMem_linesText_lf, hone,
    respell_prefix_iff (by decide) hf]

include hg

theorem Unbroken.layOut_respell {written : Text}
    (hout : layOut g (linesText .lf lines) following = .ok written) :
    layOut g (linesText e lines) (e.respell following) = .ok (e.respell written) ∧
      '\r' ∉ written := by
  have hcr := h.cr_notMem_linesText_lf
  rw [h.layOut_linesText] at hout ⊢
  rw [h.separates_respell hf, h.linesText_eq_respell e]
  split at hout
  · rename_i hsep
    cases hout
    rw [if_pos hsep]
    exact ⟨rfl, hcr⟩
  · rename_i hsep
    rw [if_neg hsep]
    cases hc : g.leading following with
    | error cause => simp [hc, Except.map] at hout
    | ok comment =>
      rw [hc, Except.map, Except.ok.injEq] at hout
      obtain ⟨rest, rfl⟩ := leading_isPrefix hc
      rw [leading_respell hg hf hc, Except.map,
        if_congr (respell_eq_nil_iff fun hm => hf (List.mem_append_left rest hm)) rfl rfl]
      subst hout
      split
      · exact ⟨rfl, hcr⟩
      · rw [respell_append hcr]
        simp [LineEnding.text, hcr]

theorem Unbroken.layOut_respell_error {cause : CommentError}
    (hout : layOut g (linesText .lf lines) following = .error cause) :
    g.leading following = .error cause ∧ ∃ cause', cause.Respelled e following cause' ∧
      layOut g (linesText e lines) (e.respell following) = .error cause' := by
  rw [h.layOut_linesText] at hout
  rw [h.layOut_linesText, h.separates_respell hf]
  split at hout
  · cases hout
  · rename_i hsep
    rw [if_neg hsep]
    cases hc : g.leading following with
    | ok comment => simp [hc, Except.map] at hout
    | error cause' =>
      obtain rfl : cause' = cause := by simpa [hc, Except.map] using hout
      obtain ⟨cause'', hc', hsame⟩ := leading_respell_error (e := e) hg hf hc
      exact ⟨rfl, cause'', hsame, by rw [hc', Except.map]⟩

end LayOut

namespace Rule

variable {r : Rule} {comment : Text}

theorem passesGate_respell (hk : Unbroken r.keywords) (hne : ∀ k ∈ r.keywords, k ≠ [])
    (h : '\r' ∉ t) : r.passesGate (e.respell t) = r.passesGate t :=
  passesGate_congr fun k hmem => by
    have hlower : '\r' ∉ lower t := cr_notMem_lowerBehind h []
    rw [lower_respell h, contains_respell (hk k hmem) (hne k hmem) hlower]

/-- The text in which a revision finds a malformed comment: the text itself or, where its own leading
comment is well-formed, the text behind the part that gives way. -/
inductive FailsIn (r : Rule) (t : Text) : Text → CommentError → Prop
  | whole {cause : CommentError} (h : r.grammar.leading t = .error cause) : FailsIn r t t cause
  | behind {cause : CommentError} {comment : Text} (hc : r.grammar.leading t = .ok comment)
      (h : r.grammar.leading (r.behind comment t) = .error cause) :
      FailsIn r t (r.behind comment t) cause

/-- What is known of a rule that neither looks for nor writes a line break in a line. -/
structure InLine (r : Rule) : Prop where
  skip : r.skip = none
  closes : r.grammar.ClosesInLine
  keywords : Unbroken r.keywords
  notBlank : ∀ k ∈ r.keywords, k ≠ []
  header : ∀ lines ∈ r.header, Unbroken lines

theorem inLine_ofLanguage {l : Language} {header : Option (List Text)} (hskip : l.skip.getD [] = [])
    (htokens : l.hasTokensInLine) (hkeywords : Unbroken keywords)
    (hheader : ∀ lines ∈ header, Unbroken lines)
    (hrule : ofLanguage l header keywords = .ok r) : r.InLine := by
  rw [ofLanguage_eq hskip, Except.ok.injEq] at hrule
  subst hrule
  exact ⟨rfl, l.closesInLine htokens, hkeywords.normalizeKeywords,
    fun k hk => (core_of_mem_normalizeKeywords hk).1, hheader⟩

theorem cr_notMem_behind (h : '\r' ∉ t) : '\r' ∉ r.behind comment t :=
  fun hm => h (List.mem_of_mem_drop hm)

namespace InLine

variable (hr : r.InLine)
include hr

theorem headerText?_respell (e : LineEnding) :
    r.headerText? e = (r.headerText? .lf).map e.respell := by
  unfold headerText?
  cases hlines : r.header with
  | none => rfl
  | some lines => simp [(hr.header lines hlines).linesText_eq_respell e]

theorem cr_notMem_headerText? {header : Text} (h : r.headerText? .lf = some header) :
    '\r' ∉ header := by
  obtain ⟨lines, hlines, rfl⟩ := Option.map_eq_some_iff.mp h
  exact (hr.header lines hlines).cr_notMem_linesText_lf

theorem desired_respell_iff (h : '\r' ∉ comment) :
    (e.respell comment ≠ [] ∧ r.headerText? e = some (e.respell comment)) ↔
      comment ≠ [] ∧ r.headerText? .lf = some comment := by
  refine and_congr (not_congr (respell_eq_nil_iff h)) ?_
  rw [hr.headerText?_respell e]
  cases hheader : r.headerText? .lf with
  | none => simp
  | some header => simp [respell_inj (hr.cr_notMem_headerText? hheader) h]

theorem replaceable_respell (h : '\r' ∉ comment) :
    r.replaceable (e.respell comment) = e.respell (r.replaceable comment) := by
  rw [replaceable, replaceable, passesGate_respell hr.keywords hr.notBlank h]
  split <;> rfl

theorem behind_respell (h : '\r' ∉ t) (hcomment : comment <+: t) :
    r.behind (e.respell comment) (e.respell t) = e.respell (r.behind comment t) := by
  obtain ⟨rest, rfl⟩ := hcomment
  have hboth : '\r' ∉ r.replaceable comment ++ r.behind comment (comment ++ rest) := by
    rwa [behind, replaceable_append_drop]
  have hfront : '\r' ∉ comment := fun hm => h (List.mem_append_left rest hm)
  rw [behind, hr.replaceable_respell hfront]
  conv_lhs => rw [← replaceable_append_drop r comment rest]
  rw [respell_append fun hm => hboth (List.mem_append_left _ hm), List.drop_left]
  rfl

section Replace

variable {existing rest : Text} (hrest : '\r' ∉ rest)
include hrest

theorem replaceHeader_respell {new : Revision} (hexisting : '\r' ∉ existing)
    (hnew : r.replaceHeader (r.headerText? .lf) existing rest = .ok new) :
    r.replaceHeader (r.headerText? e) (e.respell existing) (e.respell rest) =
        .ok ⟨new.action, e.respell new.content⟩ ∧ '\r' ∉ new.content := by
  unfold headerText? at hnew ⊢
  cases hlines : r.header with
  | none =>
    rw [hlines, Option.map_none, replaceHeader, Except.ok.injEq] at hnew
    subst hnew
    exact ⟨rfl, hrest⟩
  | some lines =>
    rw [hlines, Option.map_some, replaceHeader] at hnew
    cases hout : layOut r.grammar (linesText .lf lines) rest with
    | error cause => simp [hout, Except.map] at hnew
    | ok written =>
      rw [hout, Except.map, Except.ok.injEq] at hnew
      subst hnew
      obtain ⟨hout', hwritten⟩ :=
        (hr.header lines hlines).layOut_respell (e := e) hr.closes hrest hout
      rw [Option.map_some, replaceHeader, hout', Except.map, respell_append hwritten,
        if_congr (respell_eq_nil_iff hexisting) rfl rfl]
      exact ⟨rfl, by simp [hwritten, hrest]⟩

theorem replaceHeader_respell_error {cause : CommentError}
    (hcause : r.replaceHeader (r.headerText? .lf) existing rest = .error cause) :
    r.grammar.leading rest = .error cause ∧ ∃ cause', cause.Respelled e rest cause' ∧
      r.replaceHeader (r.headerText? e) (e.respell existing) (e.respell rest) = .error cause' := by
  unfold headerText? at hcause ⊢
  cases hlines : r.header with
  | none => simp [hlines, replaceHeader] at hcause
  | some lines =>
    rw [hlines, Option.map_some, replaceHeader] at hcause
    cases hout : layOut r.grammar (linesText .lf lines) rest with
    | ok written => simp [hout, Except.map] at hcause
    | error cause' =>
      obtain rfl : cause' = cause := by simpa [hout, Except.map] using hcause
      obtain ⟨hleading, cause'', hsame, hout'⟩ :=
        (hr.header lines hlines).layOut_respell_error (e := e) hr.closes hrest hout
      exact ⟨hleading, cause'', hsame, by rw [Option.map_some, replaceHeader, hout', Except.map]⟩

end Replace

theorem revise_respell_of_leading (h : '\r' ∉ t) (hlf : '\n' ∈ t)
    (hc : r.grammar.leading t = .ok comment) :
    r.revise (e.respell t) =
      if comment ≠ [] ∧ r.headerText? (dominant t) = some comment then .ok ⟨.unchanged, e.respell t⟩
      else (r.replaceHeader (r.headerText? e) (e.respell (r.replaceable comment))
        (e.respell (r.behind comment t))).map fun new =>
          ⟨if new.content = e.respell t then .unchanged else new.action, new.content⟩ := by
  have hstarts := leading_isPrefix hc
  have hcomment : '\r' ∉ comment := fun hm => h (hstarts.subset hm)
  rw [revise_of_leading hr.skip (leading_respell hr.closes h hc), dominant_respell h hlf,
    dominant_of_cr_notMem h, if_congr (hr.desired_respell_iff hcomment) rfl rfl,
    hr.replaceable_respell hcomment, hr.behind_respell h hstarts]

theorem revise_respell_ok (h : '\r' ∉ t) (hlf : '\n' ∈ t) {new : Revision}
    (hnew : r.revise t = .ok new) :
    r.revise (e.respell t) = .ok ⟨new.action, e.respell new.content⟩ := by
  cases hc : r.grammar.leading t with
  | error cause => simp [revise_of_leading_error hr.skip hc] at hnew
  | ok comment =>
    rw [revise_of_leading hr.skip hc] at hnew
    rw [hr.revise_respell_of_leading h hlf hc]
    split at hnew
    · rename_i hsame
      cases hnew
      rw [if_pos hsame]
    · rename_i hother
      rw [if_neg hother]
      rw [dominant_of_cr_notMem h] at hnew
      cases hinner : r.replaceHeader (r.headerText? .lf) (r.replaceable comment)
          (r.behind comment t) with
      | error cause => simp [hinner, Except.map] at hnew
      | ok inner =>
        have hexisting : '\r' ∉ r.replaceable comment := by
          rcases r.replaceable_cases comment with heq | hnil
          · exact fun hm => h ((leading_isPrefix hc).subset (heq ▸ hm))
          · simp [hnil]
        rw [hinner, Except.map, Except.ok.injEq] at hnew
        obtain ⟨hinner', hcontent⟩ :=
          hr.replaceHeader_respell (e := e) (cr_notMem_behind h) hexisting hinner
        subst hnew
        rw [hinner', Except.map, if_congr (respell_inj hcontent h) rfl rfl]

/-- A malformed comment is found in both texts, and in the same place of what is parsed. -/
theorem revise_respell_error (h : '\r' ∉ t) (hlf : '\n' ∈ t) {cause : CommentError}
    (hcause : r.revise t = .error cause) :
    ∃ parsed cause', r.FailsIn t parsed cause ∧ r.revise (e.respell t) = .error cause' ∧
      cause.Respelled e parsed cause' := by
  cases hc : r.grammar.leading t with
  | error cause' =>
    obtain rfl : cause' = cause := by simpa [revise_of_leading_error hr.skip hc] using hcause
    obtain ⟨cause'', hc', hsame⟩ := leading_respell_error (e := e) hr.closes h hc
    exact ⟨t, cause'', .whole hc, revise_of_leading_error hr.skip hc', hsame⟩
  | ok comment =>
    rw [revise_of_leading hr.skip hc] at hcause
    rw [hr.revise_respell_of_leading h hlf hc]
    split at hcause
    · cases hcause
    · rename_i hother
      rw [if_neg hother]
      rw [dominant_of_cr_notMem h] at hcause
      cases hinner : r.replaceHeader (r.headerText? .lf) (r.replaceable comment)
          (r.behind comment t) with
      | ok inner => simp [hinner, Except.map] at hcause
      | error cause' =>
        obtain rfl : cause' = cause := by simpa [hinner, Except.map] using hcause
        obtain ⟨hleading, cause'', hsame, hinner'⟩ :=
          hr.replaceHeader_respell_error (e := e) (cr_notMem_behind h) hinner
        exact ⟨_, cause'', .behind hc hleading, by rw [hinner', Except.map], hsame⟩

end InLine

section Language

variable {l : Language} {header : Option (List Text)} (hskip : l.skip.getD [] = [])
  (htokens : l.hasTokensInLine) (hkeywords : Unbroken keywords)
  (hheader : ∀ lines ∈ header, Unbroken lines) (hrule : ofLanguage l header keywords = .ok r)
  (hcr : '\r' ∉ t) (hlf : '\n' ∈ t)
include hskip htokens hkeywords hheader hrule hcr hlf

/-- In a language without line breaks in its tokens a revision does the same with every line ending.
If it fails, it fails in front of the same character with the same error, and its offset is counted in
the text that was parsed. -/
theorem revise_respell (e : LineEnding) :
    (∀ new, r.revise t = .ok new →
      r.revise (e.respell t) = .ok ⟨new.action, e.respell new.content⟩) ∧
    ∀ cause, r.revise t = .error cause → ∃ parsed cause', r.FailsIn t parsed cause ∧
      r.revise (e.respell t) = .error cause' ∧ cause.Respelled e parsed cause' := by
  have hr := inLine_ofLanguage hskip htokens hkeywords hheader hrule
  exact ⟨fun _ => hr.revise_respell_ok hcr hlf, fun _ => hr.revise_respell_error hcr hlf⟩

end Language

/-- The comment behind a licence is no part of it with pairs either. -/
theorem revise_respell_pairs : (slashedRule (some ["// H".toList]) ["license".toList]).revise
    "// License\r\n\r\n// c\r\ncode".toList =
      .ok ⟨.replaced, "// H\r\n\r\n// c\r\ncode".toList⟩ := by
  have hlf : (slashedRule (some ["// H".toList]) ["license".toList]).revise
      "// License\n\n// c\ncode".toList = .ok ⟨.replaced, "// H\n\n// c\ncode".toList⟩ := by cbv
  exact (revise_respell (l := slashed) rfl (by decide) (by decide) (by decide) rfl (by decide)
    (by decide) .crlf).1 _ hlf

/-- The offset of a malformed comment behind a header that gives way is not counted in the text. -/
theorem not_revise_respell_offset : ¬ ∀ (l : Language) (header : Option (List Text))
    (keywords : List Text) (r : Rule) (t : Text) (e : LineEnding), l.skip.getD [] = [] →
    l.hasTokensInLine → Unbroken keywords → (∀ lines ∈ header, Unbroken lines) →
    ofLanguage l header keywords = .ok r → '\r' ∉ t → '\n' ∈ t → e ≠ .lf →
    (∀ new, r.revise t = .ok new →
      r.revise (e.respell t) = .ok ⟨new.action, e.respell new.content⟩) ∧
    ∀ cause, r.revise t = .error cause →
      ∃ cause', r.revise (e.respell t) = .error cause' ∧ cause.Respelled e t cause' := by
  intro h
  have hlf : (slashedRule (some ["// H".toList]) []).revise "// license\n\n// c\n/* d".toList =
      .error (.unterminatedBlockComment 5) := by cbv
  have hcrlf : (slashedRule (some ["// H".toList]) []).revise
      (LineEnding.crlf.respell "// license\n\n// c\n/* d".toList) =
      .error (.unterminatedBlockComment 6) := by cbv
  obtain ⟨-, hfails⟩ := h slashed (some ["// H".toList]) [] _ "// license\n\n// c\n/* d".toList .crlf
    rfl (by decide) (by decide) (by decide) rfl (by decide) (by decide) (by decide)
  obtain ⟨cause, hcause, hsame⟩ := hfails _ hlf
  obtain rfl : .unterminatedBlockComment 6 = cause := Except.error.inj (hcrlf.symm.trans hcause)
  obtain ⟨front, hfront, hbytes, hbytes'⟩ := hsame.of_unterminated
  have hline : front <+: "// license".toList :=
    List.prefix_of_prefix_length_le hfront (by decide)
      ((length_le_bytes front).trans (hbytes ▸ (by decide : 5 ≤ "// license".toList.length)))
  have hunbroken : Unbroken ["// license".toList] := by decide
  have hself : LineEnding.crlf.respell front = front := respell_eq_self fun c hc =>
    hunbroken _ List.mem_cons_self c (hline.subset hc)
  rw [hself, ← hbytes] at hbytes'
  cases hbytes'

end Rule

end Header
end Masthead
