import Masthead.Task

/-!
# Header properties

Tokens such as `%CurrentYear%` that a header's lines may contain, and their values for one file.
Properties that the caller gives come before the built-in ones, so they can redefine any token.
-/
namespace Masthead.Header

structure Property where
  token : Text
  value : Text
  deriving DecidableEq, Repr

/-- What the values of built-in properties depend on besides the file. -/
structure Surroundings where
  now : Moment
  user : Option Text
  deriving DecidableEq, Repr

/-- The surroundings with the first of two user names that is known and not empty. -/
def Surroundings.ofUsers (now : Moment) (user otherUser : Option Text) : Surroundings :=
  ⟨now, (user.filter (· ≠ [])).or (otherUser.filter (· ≠ []))⟩

namespace Property

/-- Replaces the tokens in a line, one property after the other. -/
def expandLine (properties : List Property) (line : Text) : Text :=
  properties.foldl (fun line p => Text.replace p.token p.value line) line

def dated (name : String) (m : Moment) : List Property :=
  let time := m.civil
  let token (part : String) : Text := "%".toList ++ name.toList ++ part.toList ++ "%".toList
  [⟨token "Year", time.yearText⟩, ⟨token "Month", time.monthText⟩, ⟨token "Day", time.dayText⟩,
    ⟨token "Time", time.clockText⟩]

/-- The properties of a file. Those whose values are not known are left out. -/
def builtIn (s : Surroundings) (path : Path) (born : Option Moment) : List Property :=
  [⟨"%FullFileName%".toList, path.shown⟩, ⟨"%FileName%".toList, path.fileName⟩] ++
    dated "Current" s.now ++
    (match born with
      | some m => dated "Creation" m
      | none => []) ++
    (match s.user with
      | some user => [⟨"%UserName%".toList, user⟩]
      | none => [])

def expand (s : Surroundings) (path : Path) (given : List Property) (lines : List Text) :
    Task (List Text) := do
  let born ← Task.birthTime path
  return lines.map (expandLine (given ++ builtIn s path born))

end Property
end Masthead.Header
