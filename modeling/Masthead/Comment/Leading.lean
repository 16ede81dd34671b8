import Masthead.Comment.Grammar

/-!
# The leading comment of a text

A text is scanned item by item, with the blanks between the items. Once an item has been read and no
region is open, a blank line ends the scan. The leading comment is what was scanned, less the part
from the outermost region that stays open.
-/
namespace Masthead.Comment

inductive CommentError where
  | unterminatedBlockComment (offset : Nat)
  | unmatchedRegionClose (offset : Nat)
  deriving DecidableEq, Repr

namespace CommentError

def message : CommentError → Text
  | unterminatedBlockComment offset =>
    "Unterminated block comment starting at offset ".toList ++ Text.ofNat offset
  | unmatchedRegionClose offset =>
    "Region end at offset ".toList ++ Text.ofNat offset ++
      " has no matching region start".toList

end CommentError

inductive Stop where
  | endOfText
  | blankLine
  | otherText
  deriving DecidableEq, Repr

/-- Reads blanks until `breaks` line endings have been read: the blanks, the rest, and the number of
line endings that were not found. -/
def takeBlanks : (breaks : Nat) → Text → Text × Text × Nat
  | 0, t => ([], t, 0)
  | breaks + 1, [] => ([], [], breaks + 1)
  | breaks + 1, '\r' :: '\n' :: t =>
    let (blanks, rest, missing) := takeBlanks breaks t
    ('\r' :: '\n' :: blanks, rest, missing)
  | breaks + 1, c :: t =>
    if isBlank c then
      let (blanks, rest, missing) := takeBlanks (if isLineBreak c then breaks else breaks + 1) t
      (c :: blanks, rest, missing)
    else ([], c :: t, breaks + 1)

structure Gap where
  blanks : Text
  rest : Text
  stop : Option Stop

/-- Reads a gap. Where a blank line ends the scan, the gap ends with its line ending. -/
def readGap (blankLineEnds : Bool) (t : Text) : Gap :=
  if blankLineEnds then
    let (blanks, rest, missing) := takeBlanks 2 t
    if missing = 0 then ⟨blanks, rest, some .blankLine⟩
    else ⟨blanks, rest, if rest = [] then some .endOfText else none⟩
  else
    let rest := t.dropWhile isBlank
    ⟨t.takeWhile isBlank, rest, if rest = [] then some .endOfText else none⟩

/-- An item with the blanks in front of it. -/
structure Piece where
  blanks : Text
  item : Item
  deriving DecidableEq, Repr

def Piece.text (p : Piece) : Text := p.blanks ++ p.item.text

/-- The items of a text, the blanks behind the last one, and why no other was read. -/
structure Scan where
  pieces : List Piece
  blanks : Text
  stop : Stop
  deriving DecidableEq, Repr

def piecesText (pieces : List Piece) : Text := pieces.flatMap Piece.text

def Scan.text (s : Scan) : Text := piecesText s.pieces ++ s.blanks

/-- How many regions are open behind an item; none if it closes a region that was not opened. -/
def ItemKind.depthAfter? : ItemKind → Nat → Option Nat
  | regionStart, depth => some (depth + 1)
  | regionEnd, 0 => none
  | regionEnd, depth + 1 => some depth
  | _, depth => some depth

theorem takeBlanks_append (breaks : Nat) (t : Text) :
    (takeBlanks breaks t).1 ++ (takeBlanks breaks t).2.1 = t := by
  fun_induction takeBlanks breaks t <;> simp_all

theorem readGap_append (blankLineEnds : Bool) (t : Text) :
    (readGap blankLineEnds t).blanks ++ (readGap blankLineEnds t).rest = t := by
  unfold readGap
  split
  · have := takeBlanks_append 2 t
    dsimp only
    split <;> exact this
  · exact List.takeWhile_append_dropWhile

theorem length_readGap_le (blankLineEnds : Bool) (t : Text) :
    (readGap blankLineEnds t).rest.length ≤ t.length := by
  have := congrArg List.length (readGap_append blankLineEnds t)
  simp only [List.length_append] at this
  omega

namespace Grammar

/-- Scans `t`, which stands at byte `offset` behind items that leave `depth` regions open; `started`
tells whether there are such items. -/
def scanFrom (g : Grammar) (started : Bool) (depth offset : Nat) (t : Text) :
    Except CommentError Scan :=
  match _hgap : readGap (started && depth == 0) t with
  | ⟨blanks, _, some stop⟩ => .ok ⟨[], blanks, stop⟩
  | ⟨blanks, front, none⟩ =>
    match _hitem : g.readItem front with
    | .other => .ok ⟨[], blanks, .otherText⟩
    | .unterminated => .error (.unterminatedBlockComment (offset + blanks.bytes))
    | .item item rest =>
      match item.kind.depthAfter? depth with
      | none => .error (.unmatchedRegionClose (offset + blanks.bytes))
      | some newDepth => do
        let s ← scanFrom g true newDepth (offset + blanks.bytes + item.text.bytes) rest
        .ok { s with pieces := ⟨blanks, item⟩ :: s.pieces }
termination_by t.length
decreasing_by
  have := length_lt_of_readItem _hitem
  have : front.length ≤ t.length := by
    simpa [_hgap] using length_readGap_le (started && depth == 0) t
  omega

def scan (g : Grammar) (t : Text) : Except CommentError Scan := g.scanFrom false 0 0 t

end Grammar

/-- The number of items in the longest part in front behind which no region is open. -/
def closedCount? (depth : Nat) : List Piece → Option Nat
  | [] => if depth = 0 then some 0 else none
  | p :: ps =>
    match (p.item.kind.depthAfter? depth).bind fun depth => closedCount? depth ps with
    | some n => some (n + 1)
    | none => if depth = 0 then some 0 else none

/-- Cuts off the blanks at the end of a text up to its last line break. -/
def dropIndent (t : Text) : Text := t.dropEndWhile fun c => isBlank c && !isLineBreak c

/-- The leading comment that a scan has found. Indentation in front of the first text that does not
belong to it stays with that text. -/
def Scan.leading (s : Scan) : Text :=
  let closed := (closedCount? 0 s.pieces).getD 0
  let found :=
    match s.pieces.drop closed with
    | opening :: _ => dropIndent (piecesText (s.pieces.take closed) ++ opening.blanks)
    | [] => if s.stop = .otherText then dropIndent s.text else s.text
  if s.pieces = [] || found.isAllBlank then [] else found

namespace Grammar

/-- The leading comment of a text: empty if the text does not start with an item. -/
def leading (g : Grammar) (t : Text) : Except CommentError Text := (g.scan t).map Scan.leading

/-- The text is nothing but its leading comment. -/
def isComplete (g : Grammar) (t : Text) : Bool :=
  match g.leading t with
  | .ok comment => comment == t
  | .error _ => false

end Grammar
end Masthead.Comment
