import Masthead.LineEnding
import Masthead.Path

/-!
# Line diffs

A script of kept, deleted and inserted lines that turns one text into another, as short as any such
script. Where lines are replaced, the deleted ones come before the inserted ones.
-/
namespace Masthead.Report

inductive Change (α : Type) where
  | keep (a : α)
  | delete (a : α)
  | insert (a : α)
  deriving DecidableEq, Repr

namespace Change

variable {α : Type}

/-- The element of the old list, if the change takes one. -/
def old? : Change α → Option α
  | keep a => some a
  | delete a => some a
  | insert _ => none

/-- The element of the new list, if the change gives one. -/
def new? : Change α → Option α
  | keep a => some a
  | delete _ => none
  | insert a => some a

theorem old_map_delete (xs : List α) : (xs.map delete).filterMap old? = xs := by
  induction xs <;> simp_all [old?]

theorem new_map_insert (ys : List α) : (ys.map insert).filterMap new? = ys := by
  induction ys <;> simp_all [new?]

theorem old_map_insert (ys : List α) : (ys.map insert).filterMap old? = [] := by
  induction ys <;> simp_all [old?]

theorem new_map_delete (xs : List α) : (xs.map delete).filterMap new? = [] := by
  induction xs <;> simp_all [new?]

end Change

namespace Diff

variable {α : Type} [DecidableEq α]

/-- The lengths of the longest common subsequences of `x :: xs` with the ends of a list, given those
of `xs`. -/
def commonRow (x : α) : List α → List Nat → List Nat
  | [], _ => [0]
  | y :: ys, below =>
    let shorter := commonRow x ys (below.drop 1)
    let here :=
      if x = y then (below.drop 1).headD 0 + 1
      else max (below.headD 0) (shorter.headD 0)
    here :: shorter

/-- A row for every end of the first list, the longest first. -/
def commonTable (ys : List α) : List α → List (List Nat)
  | [] => [List.replicate (ys.length + 1) 0]
  | x :: xs =>
    let rows := commonTable ys xs
    commonRow x ys (rows.headD []) :: rows

/-- The common length for the first rows' list and the end of the other from `column` on. -/
def entry (rows : List (List Nat)) (column : Nat) : Nat := (rows.headD []).getD column 0

def scriptFrom (rows : List (List Nat)) (column : Nat) : List α → List α → List (Change α)
  | [], ys => ys.map .insert
  | x :: xs, [] => (x :: xs).map .delete
  | x :: xs, y :: ys =>
    if x = y then .keep x :: scriptFrom (rows.drop 1) (column + 1) xs ys
    else if entry rows (column + 1) ≤ entry (rows.drop 1) column then
      .delete x :: scriptFrom (rows.drop 1) column xs (y :: ys)
    else .insert y :: scriptFrom rows (column + 1) (x :: xs) ys
termination_by xs ys => xs.length + ys.length

/-- A shortest script from one list to another. -/
def script (xs ys : List α) : List (Change α) := scriptFrom (commonTable ys xs) 0 xs ys

theorem old_scriptFrom (rows : List (List Nat)) (column : Nat) (xs ys : List α) :
    (scriptFrom rows column xs ys).filterMap Change.old? = xs := by
  fun_induction scriptFrom rows column xs ys with
  | case1 => exact Change.old_map_insert _
  | case2 => exact Change.old_map_delete _
  | case3 => simp_all [Change.old?]
  | case4 => simp_all [Change.old?]
  | case5 => simp_all [List.filterMap_cons, Change.old?]

theorem new_scriptFrom (rows : List (List Nat)) (column : Nat) (xs ys : List α) :
    (scriptFrom rows column xs ys).filterMap Change.new? = ys := by
  fun_induction scriptFrom rows column xs ys with
  | case1 => exact Change.new_map_insert _
  | case2 => exact Change.new_map_delete _
  | case3 => simp_all [Change.new?]
  | case4 => simp_all [List.filterMap_cons, Change.new?]
  | case5 => simp_all [Change.new?]

end Diff

/-- A line with the mark of its change. A last line without an ending gets one. -/
def markedLine (mark : Char) (line : Text) : Text :=
  mark :: line ++ (if line.getLast?.any isLineBreak then [] else ['\n'])

def Change.render : Change Text → Text
  | keep line => markedLine ' ' line
  | delete line => markedLine '-' line
  | insert line => markedLine '+' line

def diffHeading (path : Path) : Text := "Diff for ".toList ++ path.shown ++ ":\n".toList

/-- The diff of a file's text by the script that `script` gives for the lines, with a heading and an
empty line at its end. -/
def renderDiffBy (script : List Text → List Text → List (Change Text)) (path : Path)
    (old new : Text) : Text :=
  let changes := script (Lines.ofText old).whole (Lines.ofText new).whole
  diffHeading path ++ changes.flatMap Change.render ++ ['\n']

/-- The diff of a file's text by a shortest script. -/
def renderDiff (path : Path) (old new : Text) : Text := renderDiffBy Diff.script path old new

end Masthead.Report
