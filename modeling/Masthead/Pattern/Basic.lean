import Masthead.Pattern.CharSet

/-!
# Patterns

Patterns and the part of a text that they match from a given place on. Of two alternatives the first
wins, and a repetition takes as many rounds as it can, or as few if it is lazy. A match never goes
back: what it leaves is an end of the text it was given.
-/
namespace Masthead

/-- A place in a text: the characters behind it, the nearest first, and those ahead of it. -/
structure Cursor where
  behind : Text
  ahead : Text
  deriving DecidableEq, Repr

inductive Anchor where
  | textStart
  | textEnd
  | lineStart
  | lineEnd
  | crlfLineStart
  | crlfLineEnd
  | wordBoundary
  | noWordBoundary
  | wordStart
  | wordEnd
  | wordStartHalf
  | wordEndHalf
  deriving DecidableEq, Repr

namespace Anchor

def isWordAt (t : Text) : Bool := t.head?.any isWordCharacter

/-- The anchor matches at a place. Line anchors see line feeds only, unless they are CRLF anchors,
for which a pair of carriage return and line feed is one ending. -/
def holds (anchor : Anchor) (place : Cursor) : Bool :=
  let last := place.behind.head?
  let next := place.ahead.head?
  let wordBehind := isWordAt place.behind
  let wordAhead := isWordAt place.ahead
  match anchor with
  | textStart => last == none
  | textEnd => next == none
  | lineStart => last == none || last == some '\n'
  | lineEnd => next == none || next == some '\n'
  | crlfLineStart =>
    last == none || last == some '\n' || (last == some '\r' && next != some '\n')
  | crlfLineEnd => next == none || next == some '\r' || (next == some '\n' && last != some '\r')
  | wordBoundary => wordBehind != wordAhead
  | noWordBoundary => wordBehind == wordAhead
  | wordStart => !wordBehind && wordAhead
  | wordEnd => wordBehind && !wordAhead
  | wordStartHalf => !wordBehind
  | wordEndHalf => !wordAhead

end Anchor

inductive Pattern where
  | empty
  | chars (set : CharSet)
  | anchor (anchor : Anchor)
  | concat (first second : Pattern)
  | either (first second : Pattern)
  | times (body : Pattern) (least : Nat) (most : Option Nat) (greedy : Bool)
  deriving DecidableEq, Repr

namespace Pattern

variable {α : Type}

/-- How a pattern matches: all that can follow is tried at one end of a match after the other, until
it succeeds. -/
abbrev Matcher (α : Type) := Cursor → (Cursor → Option α) → Option α

def orElse (first : Option α) (second : Unit → Option α) : Option α :=
  match first with
  | some a => some a
  | none => second ()

/-- One more round is preferred to none if the repetition is greedy. -/
def prefer (greedy : Bool) (more enough : Unit → Option α) : Option α :=
  if greedy then orElse (more ()) enough else orElse (enough ()) more

def exactly (body : Matcher α) : Nat → Matcher α
  | 0, place, next => next place
  | n + 1, place, next => body place fun place => exactly body n place next

def atMost (body : Matcher α) (greedy : Bool) : Nat → Matcher α
  | 0, place, next => next place
  | n + 1, place, next =>
    prefer greedy (fun _ => body place fun place => atMost body greedy n place next)
      (fun _ => next place)

/-- One or more rounds. A first round that matches nothing is the last one, and a later one that
matches nothing is not counted. -/
def rounds (body : Matcher α) (greedy isFirst : Bool) (place : Cursor)
    (next : Cursor → Option α) : Option α :=
  body place fun after =>
    if after.ahead.length < place.ahead.length then
      prefer greedy (fun _ => rounds body greedy false after next) (fun _ => next after)
    else if isFirst then next after else none
termination_by place.ahead.length

def atLeast (body : Matcher α) (greedy : Bool) : Nat → Matcher α
  | 0, place, next =>
    prefer greedy (fun _ => rounds body greedy true place next) (fun _ => next place)
  | n + 1, place, next => exactly body n place fun place => rounds body greedy true place next

def run : Pattern → Matcher α
  | .empty, place, next => next place
  | .chars set, place, next =>
    match place.ahead with
    | c :: rest => if set.contains c then next ⟨c :: place.behind, rest⟩ else none
    | [] => none
  | .anchor a, place, next => if a.holds place then next place else none
  | .concat first second, place, next => run first place fun place => run second place next
  | .either first second, place, next =>
    orElse (run first place next) (fun _ => run second place next)
  | .times body least none greedy, place, next => atLeast (run body) greedy least place next
  | .times body least (some most) greedy, place, next =>
    exactly (run body) least place fun place =>
      atMost (run body) greedy (most - least) place next

/-- What follows the match of a pattern that starts where the text starts. -/
def restAfter? (p : Pattern) (t : Text) : Option Text :=
  p.run ⟨[], t⟩ fun place => some place.ahead

end Pattern
end Masthead
