import Masthead.Proofs.Header.Keywords
import Masthead.Proofs.Header.Layout

namespace Masthead
open Text LineEnding Comment

/-- No token of the language holds a blank; the one that ends regions may, but no line break. -/
def Language.hasPlainTokens (l : Language) : Bool :=
  [l.lineComment, l.blockStart, l.blockEnd, l.regionStart].all
      (·.all fun token => token.all (!isBlank ·)) &&
    l.regionEnd.all fun token => token.all (!isLineBreak ·)

theorem Comment.Token.ofText?_eq_some_iff {t : Text} {token : Token} :
    Token.ofText? t = some token ↔ token.text = t := by
  unfold Token.ofText?
  split
  · rename_i hnil
    simp [hnil, token.ne_nil]
  · obtain ⟨text, hne⟩ := token
    simp [eq_comm]

theorem Language.blockEnd_eq_some {l : Language} {pair : Token × Token}
    (h : pair ∈ l.grammar.block) : l.blockEnd = some pair.2.text := by
  obtain ⟨opener, -, hblock⟩ := Option.bind_eq_some_iff.mp h
  obtain ⟨closer, hcloser, hpair⟩ := Option.bind_eq_some_iff.mp hblock
  obtain ⟨token, htoken, hof⟩ := Option.bind_eq_some_iff.mp hcloser
  obtain rfl : (opener, closer) = pair := by simpa using hpair
  rw [Token.ofText?_eq_some_iff.mp hof]
  exact htoken

theorem Language.closesPlainly {l : Language} (h : l.hasPlainTokens) : l.grammar.ClosesPlainly := by
  intro pair hpair c hc
  have hend := l.blockEnd_eq_some hpair
  simp only [hasPlainTokens, hend, List.all_cons, Option.all_some, Bool.and_eq_true] at h
  simpa using List.all_eq_true.mp h.1.2.2.1 c hc

namespace Header

/-- The rule removes headers, or it gives one that is valid and not blank and whose lines hold no
line break. -/
structure Rule.Sound (r : Rule) : Prop where
  valid : r.isValid
  notBlank : ∀ lines ∈ r.header, (linesText .lf lines).isAllBlank = false
  unbroken : ∀ lines ∈ r.header, Unbroken lines

namespace Rule

variable {r : Rule} {l : Language} {lines : List Text} {comment t : Text}

theorem Sound.proper (h : r.Sound) (hlines : r.header = some lines) : Proper r.grammar lines where
  complete := by
    have := h.valid
    simpa [isValid, headerText?, hlines, h.notBlank lines hlines] using this
  notBlank := h.notBlank lines hlines
  unbroken := h.unbroken lines hlines

theorem ofLanguage_eq (hskip : l.skip.getD [] = []) (header : Option (List Text))
    (keywords : List Text) :
    ofLanguage l header keywords = .ok ⟨l.grammar, none, header, normalizeKeywords keywords⟩ := by
  have hpattern : l.skipPattern? = .ok none := by
    unfold Language.skipPattern?
    split <;> simp_all
  simp [ofLanguage, hpattern, bind, Except.bind]

/-- The text behind the part of the leading comment that gives way. -/
def behind (r : Rule) (comment t : Text) : Text := t.drop (r.replaceable comment).length

theorem behind_of_keywords_eq_nil (h : r.keywords = []) (comment t : Text) :
    r.behind comment t = t.drop comment.length := by simp [behind, replaceable, passesGate, h]

theorem headerText?_of_header (hlines : r.header = some lines) (e : LineEnding) :
    r.headerText? e = some (linesText e lines) := by simp [headerText?, hlines]

theorem revise_of_leading (hskip : r.skip = none) (hc : r.grammar.leading t = .ok comment) :
    r.revise t =
      if comment ≠ [] ∧ r.headerText? (dominant t) = some comment then .ok ⟨.unchanged, t⟩
      else (r.replaceHeader (r.headerText? (dominant t)) (r.replaceable comment)
        (r.behind comment t)).map fun new =>
          ⟨if new.content = t then .unchanged else new.action, new.content⟩ := by
  simp only [revise, splitSkipped, hskip, Option.bind_none, hc, bind, Except.bind, behind]
  split
  · rfl
  · cases r.replaceHeader (r.headerText? (dominant t)) (r.replaceable comment)
      (t.drop (r.replaceable comment).length) <;> rfl

theorem revise_of_leading_error {cause : CommentError} (hskip : r.skip = none)
    (hc : r.grammar.leading t = .error cause) : r.revise t = .error cause := by
  simp [revise, splitSkipped, hskip, hc, bind, Except.bind]

theorem revise_of_desired (hskip : r.skip = none) (hlines : r.header = some lines)
    (hc : r.grammar.leading t = .ok (linesText (dominant t) lines)) :
    r.revise t = .ok ⟨.unchanged, t⟩ := by
  rw [revise_of_leading hskip hc, headerText?_of_header hlines,
    if_pos ⟨linesText_ne_nil _ _, rfl⟩]

/-- Otherwise the desired header is laid out before what does not give way. -/
theorem revise_of_other (hskip : r.skip = none) (hlines : r.header = some lines)
    (hc : r.grammar.leading t = .ok comment) (hother : linesText (dominant t) lines ≠ comment) :
    r.revise t =
      (layOut r.grammar (linesText (dominant t) lines) (r.behind comment t)).map fun written =>
        ⟨if written ++ r.behind comment t = t then .unchanged
          else if r.replaceable comment = [] then .inserted else .replaced,
          written ++ r.behind comment t⟩ := by
  rw [revise_of_leading hskip hc, headerText?_of_header hlines,
    if_neg (fun h => hother (Option.some.inj h.2)), replaceHeader]
  cases layOut r.grammar (linesText (dominant t) lines) (r.behind comment t) <;> rfl

/-- A rule with a header leaves a text that has it already, and lays it out in front of others. -/
theorem revise_cases_of_header (hskip : r.skip = none) (hlines : r.header = some lines)
    (hc : r.grammar.leading t = .ok comment) {new : Revision} (h : r.revise t = .ok new) :
    linesText (dominant t) lines = comment ∧ new = ⟨.unchanged, t⟩ ∨
      linesText (dominant t) lines ≠ comment ∧ ∃ written,
        layOut r.grammar (linesText (dominant t) lines) (r.behind comment t) = .ok written ∧
        new = ⟨if written ++ r.behind comment t = t then .unchanged
          else if r.replaceable comment = [] then .inserted else .replaced,
          written ++ r.behind comment t⟩ := by
  by_cases hsame : linesText (dominant t) lines = comment
  · subst hsame
    rw [revise_of_desired hskip hlines hc, Except.ok.injEq] at h
    exact .inl ⟨rfl, h.symm⟩
  · rw [revise_of_other hskip hlines hc hsame] at h
    cases hlay : layOut r.grammar (linesText (dominant t) lines) (r.behind comment t) with
    | error cause => simp [hlay, Except.map] at h
    | ok written =>
      rw [hlay, Except.map, Except.ok.injEq] at h
      exact .inr ⟨hsame, written, rfl, h.symm⟩

/-- Everything that a rule can do to a text: leave it, take a comment off it, or lay its header out
before the rest. -/
theorem revise_cases (hskip : r.skip = none) {new : Revision} (h : r.revise t = .ok new) :
    ∃ comment, r.grammar.leading t = .ok comment ∧
      (comment ≠ [] ∧ r.headerText? (dominant t) = some comment ∧ new = ⟨.unchanged, t⟩ ∨
      r.header = none ∧
        new = ⟨if r.behind comment t = t then .unchanged else .removed, r.behind comment t⟩ ∨
      ∃ lines written, r.header = some lines ∧ linesText (dominant t) lines ≠ comment ∧
        layOut r.grammar (linesText (dominant t) lines) (r.behind comment t) = .ok written ∧
        new = ⟨if written ++ r.behind comment t = t then .unchanged
          else if r.replaceable comment = [] then .inserted else .replaced,
          written ++ r.behind comment t⟩) := by
  cases hc : r.grammar.leading t with
  | error cause => simp [revise_of_leading_error hskip hc] at h
  | ok comment =>
    refine ⟨comment, rfl, ?_⟩
    cases hlines : r.header with
    | none =>
      rw [revise_of_leading hskip hc, headerText?, hlines] at h
      exact .inr (.inl ⟨rfl, by simpa [replaceHeader, Except.map] using h.symm⟩)
    | some lines =>
      obtain ⟨rfl, hnew⟩ | ⟨hother, written, hlay, hnew⟩ := revise_cases_of_header hskip hlines hc h
      · exact .inl ⟨linesText_ne_nil _ _, headerText?_of_header hlines _, hnew⟩
      · exact .inr (.inr ⟨lines, written, rfl, hother, hlay, hnew⟩)

end Rule

section Slashed

/-- A language with line and block comments. -/
def slashed : Language :=
  ((Language.ofExtensions [".go".toList]).withLineComment "//".toList).withBlockComment
    "/*".toList "*/".toList

/-- The rule for a header, or none, of files in that language. -/
def slashedRule (header : Option (List Text)) (keywords : List Text) : Rule :=
  ⟨slashed.grammar, none, header, normalizeKeywords keywords⟩

theorem sound_slashedRule {lines : List Text} (keywords : List Text)
    (hvalid : slashed.grammar.isComplete (linesText .lf lines))
    (hblank : (linesText .lf lines).isAllBlank = false) (hunbroken : Unbroken lines) :
    (slashedRule (some lines) keywords).Sound where
  valid := by simp [Rule.isValid, Rule.headerText?, slashedRule, hvalid]
  notBlank := by simpa [slashedRule] using hblank
  unbroken := by simpa [slashedRule] using hunbroken

end Slashed

end Header
end Masthead
