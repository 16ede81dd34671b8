import Masthead.Header.Layout
import Masthead.Language.Basic

/-!
# Header rules

A rule fixes, for the files of one language, which header they shall have, and `Rule.revise` gives a
text that header. Text that the language skips stays in front, and everything behind the leading
comment stays as it is.
-/
namespace Masthead.Header

inductive Action where
  | inserted
  | replaced
  | removed
  | unchanged
  deriving DecidableEq, Repr

namespace Action

def name : Action → Text
  | inserted => "Inserted".toList
  | replaced => "Replaced".toList
  | removed => "Removed".toList
  | unchanged => "Unchanged".toList

def isChange (a : Action) : Bool := a != unchanged

end Action

/-- A text after a rule was applied to it, and what the rule did. -/
structure Revision where
  action : Action
  content : Text
  deriving DecidableEq, Repr

structure Rule where
  grammar : Comment.Grammar
  skip : Option Pattern
  /-- The lines of the desired header; none if headers are to be removed. -/
  header : Option (List Text)
  /-- In lower case; an existing header without any of them is left alone. -/
  keywords : List Text
  deriving DecidableEq

/-- Keywords are compared without surrounding blanks and case, and blank ones count for nothing. -/
def normalizeKeywords (keywords : List Text) : List Text :=
  (keywords.map fun k => Text.lower k.trim).filter (· ≠ [])

/-- The lines joined and ended by one line ending. -/
def linesText (ending : LineEnding) (lines : List Text) : Text :=
  Text.join ending.text lines ++ ending.text

namespace Rule

def ofLanguage (l : Language) (header : Option (List Text)) (keywords : List Text) :
    Except LanguageError Rule := do
  let skip ← l.skipPattern?
  .ok { grammar := l.grammar, skip := skip, header := header
        keywords := normalizeKeywords keywords }

variable (r : Rule)

def headerText? (ending : LineEnding) : Option Text := r.header.map (linesText ending)

/-- The desired header is nothing but comments. A blank one, or none, is valid as well. -/
def isValid : Bool :=
  match r.headerText? .lf with
  | some header => header.isAllBlank || r.grammar.isComplete header
  | none => true

/-- What the skip expression matches at the start of a text, and the rest. -/
def splitSkipped (t : Text) : Text × Text :=
  match r.skip.bind (·.restAfter? t) with
  | some rest => (t.take (t.length - rest.length), rest)
  | none => ([], t)

def passesGate (header : Text) : Bool :=
  r.keywords.isEmpty || r.keywords.any fun keyword => Text.contains keyword (Text.lower header)

/-- The part of the leading comment that gives way to the desired header. -/
def replaceable (comment : Text) : Text := if r.passesGate comment then comment else []

/-- What stands in place of the existing header: the action, and the text with all that follows. -/
def replaceHeader (desired : Option Text) (existing rest : Text) :
    Except Comment.CommentError Revision :=
  match desired with
  | some header => (layOut r.grammar header rest).map fun written =>
    ⟨if existing = [] then .inserted else .replaced, written ++ rest⟩
  | none => .ok ⟨.removed, rest⟩

/-- Gives a text the desired header, or removes its header if none is desired. The keywords do not
protect a header that is the desired one. -/
def revise (t : Text) : Except Comment.CommentError Revision := do
  let (skipped, body) := r.splitSkipped t
  let desired := r.headerText? (.dominant t)
  let comment ← r.grammar.leading body
  if comment ≠ [] ∧ desired = some comment then .ok ⟨.unchanged, t⟩
  else
    let existing := r.replaceable comment
    let new ← r.replaceHeader desired existing (body.drop existing.length)
    let content := skipped ++ new.content
    .ok ⟨if content = t then .unchanged else new.action, content⟩

end Rule
end Masthead.Header
