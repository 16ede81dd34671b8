import Masthead.Language.BuiltIn
import Masthead.Proofs.LineRest
import Masthead.Proofs.Pattern.Reading

namespace Masthead.Language
open Text Pattern

section Readers

def behindFirst (needle t : Text) : Option Text := (splitAtFirst? needle t).map Prod.snd

/-- The rest of a text that starts with `opener`, without the characters satisfying `p` and the line
ending behind it. -/
def behindTag (opener : Text) (p : Char → Bool) (t : Text) : Option Text :=
  (opener.isPrefixOf? t).map (dropLineWhile p)

/-- The rest of a text that starts with `opener`, behind the first `closer`. -/
def behindEnclosed (opener closer t : Text) : Option Text :=
  (opener.isPrefixOf? t).bind (behindFirst closer)

def dropDeclaration (t : Text) : Text := (behindEnclosed "<?xml".toList "?>".toList t).getD t

def dropDoctype (t : Text) : Text :=
  (behindEnclosed "<!DOCTYPE".toList ">".toList t.trimStart).getD t

/-- What follows the last closing bracket of the first line, without the rest of the line if that is
blank. -/
def behindBracket : Text → Option Text :=
  readBehind (!isLineBreak ·) true (behindTag "/>".toList isSpaceOrTab)

def behindReference (t : Text) : Option Text :=
  ("///".toList.isPrefixOf? t).bind fun t =>
    ("<reference".toList.isPrefixOf? (trimStart t)).bind behindBracket

end Readers

section Patterns

def unbroken : CharSet := .complement (.union (.union .empty (.single '\r')) (.single '\n'))

def spaceOrTab : CharSet := .union (.union .empty (.single ' ')) (.single '\t')

def lineEnd : Pattern :=
  .times (.either (word ['\r'] (.chars (.single '\n')))
    (.either (.chars (.single '\n')) (.chars (.single '\r')))) 0 (some 1) true

def tag (opener : Text) (set : CharSet) : Pattern := word opener (star set true lineEnd)

def upTo (front : Text) (last : Char) : Pattern :=
  star .full false (word front (.chars (.single last)))

def reference : Pattern :=
  word "///".toList (star .blank true (word "<reference".toList
    (star unbroken true (tag "/>".toList spaceOrTab))))

theorem contains_unbroken : unbroken.contains = (!isLineBreak ·) := by
  funext c
  rw [Bool.eq_iff_iff]
  simp [unbroken, CharSet.contains, isLineBreak]

theorem contains_spaceOrTab : spaceOrTab.contains = isSpaceOrTab := by
  funext c
  rw [Bool.eq_iff_iff]
  simp [spaceOrTab, CharSet.contains, isSpaceOrTab]

theorem leaves_lineEnd : lineEnd.Leaves fun t => some (LineEnding.dropFront t) := by
  have h := ((leaves_literal ['\r'] '\n').either
    ((advances_single '\n').leaves.either (advances_single '\r').leaves)).optional
  have hdrop : ∀ t : Text, (((['\r'] ++ ['\n']).isPrefixOf? t).or
      ((['\n'].isPrefixOf? t).or (['\r'].isPrefixOf? t))).getD t = LineEnding.dropFront t := by
    intro t
    rw [LineEnding.dropFront]
    fun_cases LineEnding.atFront? t with
    | case1 t => rfl
    | case2 t hpair =>
      cases t with
      | nil => rfl
      | cons d t =>
        have hd : '\n' ≠ d := fun heq => hpair t (by rw [heq])
        simp [isPrefixOf?_cons_cons, hd]
    | case3 t => rfl
    | case4 t hpair hcr hlf =>
      cases t with
      | nil => rfl
      | cons c t =>
        have hc : '\r' ≠ c ∧ '\n' ≠ c :=
          ⟨fun heq => hcr t (by rw [heq]), fun heq => hlf t (by rw [heq])⟩
        simp [isPrefixOf?_cons_cons, hc]
  simp only [hdrop] at h
  exact h

theorem leaves_line {set : CharSet} {p : Char → Bool} (hset : set.contains = p) :
    (star set true lineEnd).Leaves fun t => some (dropLineWhile p t) := by
  have h := leaves_lineEnd.star set true
  rw [funext (readBehind_some _ _), hset] at h
  exact h

theorem leaves_tag (opener : Text) {set : CharSet} {p : Char → Bool} (hset : set.contains = p) :
    (tag opener set).Leaves (behindTag opener p) := by
  have htag : behindTag opener p =
      fun t => (opener.isPrefixOf? t).bind fun t => some (dropLineWhile p t) :=
    funext fun t => Option.map_eq_bind
  rw [htag]
  exact (leaves_line hset).word opener

theorem leaves_upTo (front : Text) (last : Char) :
    (upTo front last).Leaves (behindFirst (front ++ [last])) := by
  have h := (leaves_literal front last).star .full false
  rw [funext (readBehind_full (by simp))] at h
  exact h

theorem advances_reference : reference.Advances behindReference := by
  have hbracket := (leaves_tag "/>".toList contains_spaceOrTab).star unbroken true
  rw [contains_unbroken] at hbracket
  have h := ((hbracket.word "<reference".toList).star .blank true).word_advances '/' "//".toList
  rw [funext (readBehind_blank (by decide) rfl _)] at h
  exact h

end Patterns

/-- The kinds of text that stay at the start of a file. -/
inductive Preamble where
  | interpreterLine
  | scriptTag
  | markupProlog
  | referenceLines
  deriving DecidableEq

namespace Preamble

def expression : Preamble → Text
  | interpreterLine => Language.interpreterLine
  | scriptTag => Language.scriptTag
  | markupProlog => Language.markupProlog
  | referenceLines => Language.referenceLines

def pattern : Preamble → Pattern
  | interpreterLine => tag "#!".toList unbroken
  | scriptTag => tag "<?php".toList spaceOrTab
  | markupProlog =>
    .concat (.times (word "<?xml".toList (upTo ['?'] '>')) 0 (some 1) true)
      (.concat (.times (star .blank true (word "<!DOCTYPE".toList (upTo [] '>'))) 0 (some 1) true)
        (star spaceOrTab true lineEnd))
  | referenceLines => .times reference 1 none true

theorem parse_expression (kind : Preamble) : Pattern.parse kind.expression = .ok kind.pattern := by
  cases kind <;> decide +kernel

/-- What the expression leaves; none if it does not match. -/
def rest? : Preamble → Text → Option Text
  | interpreterLine, t => behindTag "#!".toList (!isLineBreak ·) t
  | scriptTag, t => behindTag "<?php".toList isSpaceOrTab t
  | markupProlog, t => some (dropLineWhile isSpaceOrTab (dropDoctype (dropDeclaration t)))
  | referenceLines, t => (behindReference t).map (readAll behindReference)

theorem leaves_pattern (kind : Preamble) : kind.pattern.Leaves kind.rest? := by
  cases kind with
  | interpreterLine => exact leaves_tag _ contains_unbroken
  | scriptTag => exact leaves_tag _ contains_spaceOrTab
  | markupProlog =>
    have hdeclaration := ((leaves_upTo ['?'] '>').word "<?xml".toList).optional
    have hdoctype := (((leaves_upTo [] '>').word "<!DOCTYPE".toList).star .blank true).optional
    rw [funext (readBehind_blank (by decide) rfl _)] at hdoctype
    exact hdeclaration.concat (hdoctype.concat (leaves_line contains_spaceOrTab))
  | referenceLines => exact advances_reference.oneOrMore

/-- The text behind a preamble; all of it if there is none. -/
def drop (kind : Preamble) (t : Text) : Text := (kind.rest? t).getD t

theorem drop_referenceLines (t : Text) : referenceLines.drop t = readAll behindReference t := by
  rw [drop, rest?]
  cases h : behindReference t with
  | none => exact (readAll_of_none h).symm
  | some rest => exact (advances_reference.readAll_of_some h).symm

end Preamble

section BuiltIn

variable {l : Language} {kind : Preamble}

theorem exists_expression_builtIn (hl : l ∈ builtIn) {expression : Text}
    (hskip : l.skip = some expression) : ∃ kind : Preamble, kind.expression = expression := by
  have hall : ∀ l ∈ builtIn, ∀ e ∈ l.skip,
      e = interpreterLine ∨ e = scriptTag ∨ e = markupProlog ∨ e = referenceLines := by decide
  rcases hall l hl expression hskip with rfl | rfl | rfl | rfl
  · exact ⟨.interpreterLine, rfl⟩
  · exact ⟨.scriptTag, rfl⟩
  · exact ⟨.markupProlog, rfl⟩
  · exact ⟨.referenceLines, rfl⟩

theorem skipPattern?_of_expression (h : l.skip = some kind.expression) :
    l.skipPattern? = .ok (some kind.pattern) := by
  have hne : kind.expression ≠ [] := by cases kind <;> decide
  unfold skipPattern?
  split <;> simp_all [kind.parse_expression]

end BuiltIn

end Masthead.Language
