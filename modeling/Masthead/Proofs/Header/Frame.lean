import Masthead.Header.Document
import Masthead.Proofs.Header.Revision
import Masthead.Proofs.Pattern.Remainder

/-!
# What a revision leaves alone

A revision sees three parts in a text: what the language skips, the header that there is, and the
rest. It puts something in place of the header and keeps the other two, and its action says what it
did.
-/
namespace Masthead.Header
open Text LineEnding Comment

variable {r : Rule} {t : Text} {new : Revision}

/-- The parts of a text. A comment that does not pass the gate is no header, unless it is the desired
one. -/
structure Parts (r : Rule) (t skipped existing rest : Text) : Prop where
  text : t = skipped ++ existing ++ rest
  skipped : (∃ after, r.skip.bind (·.restAfter? t) = some after ∧ skipped ++ after = t) ∨
    r.skip.bind (·.restAfter? t) = none ∧ skipped = []
  existing : ∃ comment, r.grammar.leading (existing ++ rest) = .ok comment ∧
    existing =
      if r.passesGate comment ∨ r.headerText? (dominant t) = some comment then comment else []

/-- What is put in place of the existing header: nothing if none is desired, and otherwise the
desired one, in its own dominant ending throughout and with one more line ending at most. -/
def PutFor (desired : Option Text) (existing put : Text) : Prop :=
  match desired with
  | none => put = []
  | some header => header = existing ∧ put = existing ∨
      header ≠ existing ∧ ∃ gap, put = replaceAll (dominant header).text header ++ gap ∧
        (gap = [] ∨ gap = (dominant header).text)

namespace Rule

theorem splitSkipped_eq {skipped body : Text} (h : r.splitSkipped t = (skipped, body)) :
    t = skipped ++ body ∧
      ((∃ after, r.skip.bind (·.restAfter? t) = some after ∧ skipped ++ after = t) ∨
        r.skip.bind (·.restAfter? t) = none ∧ skipped = []) := by
  unfold splitSkipped at h
  split at h
  · rename_i after hafter
    obtain ⟨rfl, rfl⟩ := Prod.mk.inj h
    obtain ⟨pattern, -, hpattern⟩ := Option.bind_eq_some_iff.mp hafter
    obtain ⟨front, rfl⟩ := Pattern.suffix_of_restAfter? hpattern
    have htake : (front ++ after).take ((front ++ after).length - after.length) = front := by simp
    rw [htake]
    exact ⟨rfl, .inl ⟨after, hafter, rfl⟩⟩
  · rename_i hnone
    obtain ⟨rfl, rfl⟩ := Prod.mk.inj h
    exact ⟨rfl, .inr ⟨hnone, rfl⟩⟩

theorem exists_of_revise (h : r.revise t = .ok new) :
    ∃ skipped body comment, r.splitSkipped t = (skipped, body) ∧
      r.grammar.leading body = .ok comment ∧
      (comment ≠ [] ∧ r.headerText? (dominant t) = some comment ∧ new = ⟨.unchanged, t⟩ ∨
      ¬ (comment ≠ [] ∧ r.headerText? (dominant t) = some comment) ∧
        ∃ inner, r.replaceHeader (r.headerText? (dominant t)) (r.replaceable comment)
            (body.drop (r.replaceable comment).length) = .ok inner ∧
          new = ⟨if skipped ++ inner.content = t then .unchanged else inner.action,
            skipped ++ inner.content⟩) := by
  obtain ⟨skipped, body, hsplit⟩ : ∃ skipped body, r.splitSkipped t = (skipped, body) := ⟨_, _, rfl⟩
  cases hc : r.grammar.leading body with
  | error cause => simp [revise, hsplit, hc, bind, Except.bind] at h
  | ok comment =>
    refine ⟨skipped, body, comment, hsplit, hc, ?_⟩
    simp only [revise, hsplit, hc, bind, Except.bind] at h
    split at h
    · rename_i hsame
      exact .inl ⟨hsame.1, hsame.2, (Except.ok.inj h).symm⟩
    · rename_i hother
      split at h
      · simp at h
      · rename_i inner hinner
        exact .inr ⟨hother, inner, hinner, (Except.ok.inj h).symm⟩

theorem replaceable_cases (r : Rule) (comment : Text) :
    r.replaceable comment = comment ∨ r.replaceable comment = [] := by
  unfold replaceable
  split
  · exact .inl rfl
  · exact .inr rfl

theorem replaceable_append_drop (r : Rule) (comment rest : Text) :
    r.replaceable comment ++ (comment ++ rest).drop (r.replaceable comment).length =
      comment ++ rest := by
  rcases r.replaceable_cases comment with heq | hnil
  · rw [heq, List.drop_left]
  · rw [hnil]
    rfl

/-- What gives way is the comment that passes the gate; the desired header does not get here. -/
theorem replaceable_eq (r : Rule) {comment : Text}
    (h : comment ≠ [] → r.headerText? (dominant t) ≠ some comment) :
    r.replaceable comment =
      if r.passesGate comment ∨ r.headerText? (dominant t) = some comment then comment else [] := by
  by_cases hnil : comment = []
  · simp [replaceable, hnil]
  · simp [replaceable, h hnil]

theorem headerText?_ne_nil {e : LineEnding} {header : Text} (h : r.headerText? e = some header) :
    header ≠ [] := by
  obtain ⟨lines, -, rfl⟩ := Option.map_eq_some_iff.mp h
  exact linesText_ne_nil e lines

theorem layOut_eq_ok {g : Grammar} {header following written : Text}
    (h : layOut g header following = .ok written) :
    ∃ gap, written = replaceAll (dominant header).text header ++ gap ∧
      (gap = [] ∨ gap = (dominant header).text) := by
  unfold layOut at h
  dsimp only at h
  split at h
  · exact ⟨[], by simpa using h.symm, .inl rfl⟩
  · cases hc : g.leading following with
    | error cause => simp [hc, Except.map] at h
    | ok comment =>
      simp only [hc, Except.map, Except.ok.injEq] at h
      split at h
      · exact ⟨[], by simpa using h.symm, .inl rfl⟩
      · exact ⟨_, h.symm, .inr rfl⟩

theorem replaceHeader_some_eq_ok {header existing rest : Text} {inner : Revision}
    (h : r.replaceHeader (some header) existing rest = .ok inner) : ∃ written,
      layOut r.grammar header rest = .ok written ∧
        inner = ⟨if existing = [] then .inserted else .replaced, written ++ rest⟩ := by
  rw [replaceHeader] at h
  cases hlay : layOut r.grammar header rest with
  | error cause => simp [hlay, Except.map] at h
  | ok written =>
    rw [hlay, Except.map, Except.ok.injEq] at h
    exact ⟨written, rfl, h.symm⟩

/-- The header that is put in place is the one that is wanted, and the action tells whether it took
the place of another one. -/
theorem replaceHeader_eq_ok {desired : Option Text} {existing rest : Text} {inner : Revision}
    (hne : desired ≠ some existing) (h : r.replaceHeader desired existing rest = .ok inner) :
    ∃ put, inner.content = put ++ rest ∧ PutFor desired existing put ∧
      inner.action = if desired = none then .removed
        else if existing = [] then .inserted else .replaced := by
  cases desired with
  | none =>
    obtain rfl := Except.ok.inj h
    exact ⟨[], rfl, rfl, rfl⟩
  | some header =>
    obtain ⟨written, hlay, rfl⟩ := replaceHeader_some_eq_ok h
    have hheader : header ≠ existing := fun heq => hne (congrArg some heq)
    exact ⟨written, rfl, .inr ⟨hheader, layOut_eq_ok hlay⟩, by simp⟩

theorem action_of_replaceHeader {desired : Option Text} {existing rest : Text} {inner : Revision}
    (h : r.replaceHeader desired existing rest = .ok inner) : inner.action ≠ .unchanged := by
  cases desired with
  | none =>
    obtain rfl := Except.ok.inj h
    simp
  | some header =>
    obtain ⟨written, -, rfl⟩ := replaceHeader_some_eq_ok h
    dsimp only
    split <;> simp

theorem content_of_unchanged (h : r.revise t = .ok new) (hunchanged : new.action = .unchanged) :
    new.content = t := by
  obtain ⟨skipped, body, comment, -, -, hcases⟩ := exists_of_revise h
  rcases hcases with ⟨-, -, rfl⟩ | ⟨-, inner, hinner, rfl⟩
  · rfl
  · by_contra hcontent
    dsimp only at hunchanged hcontent
    rw [if_neg hcontent] at hunchanged
    exact action_of_replaceHeader hinner hunchanged

end Rule

/-- What the action of a revision says. -/
structure Truthful (r : Rule) (t existing : Text) (new : Revision) : Prop where
  unchanged : new.action = .unchanged ↔ new.content = t
  removed : new.content ≠ t → (new.action = .removed ↔ r.header = none)
  replaced : new.content ≠ t → (new.action = .replaced ↔ r.header ≠ none ∧ existing ≠ [])
  inserted : new.content ≠ t → (new.action = .inserted ↔ r.header ≠ none ∧ existing = [])

theorem truthful_of_change {existing content : Text} :
    Truthful r t existing ⟨if content = t then .unchanged
      else if r.header = none then .removed
      else if existing = [] then .inserted else .replaced, content⟩ := by
  by_cases hcontent : content = t
  · constructor <;> simp [hcontent]
  · by_cases hheader : r.header = none
    · constructor <;> simp [hcontent, hheader]
    · by_cases hexisting : existing = []
      · constructor <;> simp [hcontent, hheader, hexisting]
      · constructor <;> simp [hcontent, hheader, hexisting]

/-- A revision touches the header only, and its action tells the truth. -/
theorem Document.exists_parts {d : Document} (h : d.reviseText t = .ok new) :
    ∃ skipped existing rest put, Parts d.rule t skipped existing rest ∧
      new.content = skipped ++ put ++ rest ∧
      PutFor (d.rule.headerText? (dominant t)) existing put ∧
      Truthful d.rule t existing new := by
  have hrevise : d.rule.revise t = .ok new := by
    cases hr : d.rule.revise t with
    | error cause => simp [reviseText, hr, Except.mapError] at h
    | ok revision => simpa [reviseText, hr, Except.mapError] using h
  obtain ⟨skipped, body, comment, hsplit, hc, hcases⟩ := Rule.exists_of_revise hrevise
  obtain ⟨htext, hskipped⟩ := Rule.splitSkipped_eq hsplit
  obtain ⟨rest, rfl⟩ := leading_isPrefix hc
  rcases hcases with ⟨-, hsame, rfl⟩ | ⟨hother, inner, hinner, rfl⟩
  · have hparts : Parts d.rule t skipped comment rest :=
      ⟨by simp [htext], hskipped, comment, hc, by simp [hsame]⟩
    refine ⟨skipped, comment, rest, comment, hparts, hparts.text, ?_, ?_⟩
    · rw [hsame]
      exact .inl ⟨rfl, rfl⟩
    · constructor <;> simp
  · have hdesired : comment ≠ [] → d.rule.headerText? (dominant t) ≠ some comment :=
      fun hne hsame => hother ⟨hne, hsame⟩
    have hbody := d.rule.replaceable_append_drop comment rest
    have hparts : Parts d.rule t skipped (d.rule.replaceable comment)
        ((comment ++ rest).drop (d.rule.replaceable comment).length) :=
      ⟨by rw [List.append_assoc, hbody, htext], hskipped, comment, by rw [hbody, hc],
        d.rule.replaceable_eq hdesired⟩
    have hne : d.rule.headerText? (dominant t) ≠ some (d.rule.replaceable comment) := by
      intro hsame
      have hexisting := Rule.headerText?_ne_nil hsame
      rcases d.rule.replaceable_cases comment with heq | hnil
      · rw [heq] at hsame hexisting
        exact hdesired hexisting hsame
      · exact hexisting hnil
    obtain ⟨put, hput, hputFor, haction⟩ := Rule.replaceHeader_eq_ok hne hinner
    refine ⟨_, _, _, put, hparts, by simp [hput], hputFor, ?_⟩
    have hnone : d.rule.headerText? (dominant t) = none ↔ d.rule.header = none := by
      simp [Rule.headerText?]
    simp only [haction, hnone]
    exact truthful_of_change

/-- A document of a language that skips a line with a number sign. -/
def numberSignDocument : Document where
  path := Path.ofText "a.go".toList
  source := .onDisk
  rule := { slashedRule (some ["// H".toList]) ["old".toList] with
    skip := some (.concat (.chars (.single '#')) (.chars (.single '\n'))) }

/-- Below a line that is skipped another header gives way, and the new one is spelled with the ending
that dominates the text. -/
theorem exists_parts_below_number_sign :
    numberSignDocument.reviseText "#\n// Old\r\n\r\ncode\r\n".toList =
        .ok ⟨.replaced, "#\n// H\r\ncode\r\n".toList⟩ ∧
      ∃ skipped existing rest put,
        Parts numberSignDocument.rule "#\n// Old\r\n\r\ncode\r\n".toList skipped existing rest ∧
        "#\n// H\r\ncode\r\n".toList = skipped ++ put ++ rest ∧
        PutFor (some "// H\r\n".toList) existing put ∧
        Truthful numberSignDocument.rule "#\n// Old\r\n\r\ncode\r\n".toList existing
          ⟨.replaced, "#\n// H\r\ncode\r\n".toList⟩ := by
  have hrun : numberSignDocument.reviseText "#\n// Old\r\n\r\ncode\r\n".toList =
      .ok ⟨.replaced, "#\n// H\r\ncode\r\n".toList⟩ := by cbv
  exact ⟨hrun, Document.exists_parts hrun⟩

end Masthead.Header
