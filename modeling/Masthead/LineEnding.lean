import Masthead.Text

/-!
# Line endings

The three styles of line ending, the style that dominates a text, and the search for the next
ending. A carriage return followed by a line feed is one ending everywhere.
-/
namespace Masthead

inductive LineEnding where
  | crlf
  | lf
  | cr
  deriving DecidableEq, Repr

namespace LineEnding

def text : LineEnding → Text
  | crlf => ['\r', '\n']
  | lf => ['\n']
  | cr => ['\r']

def name : LineEnding → Text
  | crlf => "CRLF".toList
  | lf => "LF".toList
  | cr => "CR".toList

def default : LineEnding := lf

instance : Inhabited LineEnding := ⟨default⟩

/-- The longer endings first. -/
def all : List LineEnding := [crlf, lf, cr]

def atFront? : Text → Option (LineEnding × Text)
  | '\r' :: '\n' :: t => some (crlf, t)
  | '\r' :: t => some (cr, t)
  | '\n' :: t => some (lf, t)
  | _ => none

theorem eq_append_of_atFront?_eq_some {t rest : Text} {e : LineEnding}
    (h : atFront? t = some (e, rest)) : t = e.text ++ rest := by
  unfold atFront? at h
  split at h <;> simp_all
  all_goals obtain ⟨rfl, rfl⟩ := h; simp [text]

end LineEnding

/-- A text cut at its line endings: every line that has one, then the last line. -/
structure Lines where
  ended : List (Text × LineEnding)
  last : Text
  deriving DecidableEq, Repr

namespace Lines

def prepend (c : Char) (lines : Lines) : Lines :=
  match lines.ended with
  | [] => { lines with last := c :: lines.last }
  | (line, ending) :: rest => { lines with ended := (c :: line, ending) :: rest }

def ofText : Text → Lines
  | [] => ⟨[], []⟩
  | '\r' :: '\n' :: t => let ls := ofText t; { ls with ended := ([], .crlf) :: ls.ended }
  | '\r' :: t => let ls := ofText t; { ls with ended := ([], .cr) :: ls.ended }
  | '\n' :: t => let ls := ofText t; { ls with ended := ([], .lf) :: ls.ended }
  | c :: t => (ofText t).prepend c

def toText (ls : Lines) : Text := (ls.ended.flatMap fun (line, e) => line ++ e.text) ++ ls.last

/-- The lines without their endings. -/
def contents (ls : Lines) : List Text := ls.ended.map (·.1) ++ [ls.last]

/-- The lines with their endings; a last line without characters is none. -/
def whole (ls : Lines) : List Text :=
  (ls.ended.map fun (line, e) => line ++ e.text) ++ (if ls.last = [] then [] else [ls.last])

def count (e : LineEnding) (ls : Lines) : Nat := (ls.ended.map (·.2)).count e

end Lines

namespace LineEnding

/-- Counts of CRLF pairs, of lone line feeds and of lone carriage returns. -/
def tally : Text → Nat × Nat × Nat
  | [] => (0, 0, 0)
  | '\r' :: '\n' :: t => let (pairs, lfs, crs) := tally t; (pairs + 1, lfs, crs)
  | '\r' :: t => let (pairs, lfs, crs) := tally t; (pairs, lfs, crs + 1)
  | '\n' :: t => let (pairs, lfs, crs) := tally t; (pairs, lfs + 1, crs)
  | _ :: t => tally t

/-- The most frequent ending of a text; of equally frequent ones the longer, then the line feed. -/
def dominant (t : Text) : LineEnding :=
  let (pairs, lfs, crs) := tally t
  if pairs = 0 ∧ lfs = 0 ∧ crs = 0 then default
  else if lfs ≤ pairs ∧ crs ≤ pairs then crlf
  else if crs ≤ lfs then lf
  else cr

/-- Writes `new` for every line ending. -/
def replaceAll (new : Text) : Text → Text
  | [] => []
  | '\r' :: '\n' :: t => new ++ replaceAll new t
  | '\r' :: t => new ++ replaceAll new t
  | '\n' :: t => new ++ replaceAll new t
  | c :: t => c :: replaceAll new t

end LineEnding

/-- A line ending found in a text, with the byte at which it starts. -/
structure LineEnd where
  index : Nat
  ending : LineEnding
  deriving DecidableEq, Repr

namespace LineEnd

/-- The byte behind the ending. -/
def stop (e : LineEnd) : Nat := e.index + e.ending.text.bytes

/-- The first ending that starts in the bytes from `start` to before `stop`, in a text whose first
character stands at byte `at`. A pair cut by `stop` counts as a carriage return. -/
def firstIn (start stop : Nat) (position : Nat) : Text → Option LineEnd
  | [] => none
  | c :: t =>
    if position < start || stop ≤ position || !isLineBreak c then
      firstIn start stop (position + c.utf8Size) t
    else if c = '\n' then some ⟨position, .lf⟩
    else if position + 1 < stop && t.head? == some '\n' then some ⟨position, .crlf⟩
    else some ⟨position, .cr⟩

/-- The next line ending at or behind byte `start`, among `count` bytes if a count is given. -/
def next? (t : Text) (start : Nat) (count : Option Nat) : Option LineEnd :=
  match count with
  | none => firstIn start t.bytes 0 t
  | some n => firstIn start (min (start + n) t.bytes) 0 t

end LineEnd
end Masthead
