import Masthead.Editor.Basic

/-!
# The files of a run

A path on the command line that is no directory stands for itself. A directory stands for the files
below it that a language covers, apart from hidden ones and definition files.
-/
namespace Masthead.CommandLine

def isHidden (names : List Name) : Bool := names.any Name.isHidden

/-- A file that was found in a directory is to be edited. One whose name is no text is not. -/
def isCandidate (e : Editor) (p : Path) : Bool :=
  !Header.isDefinitionFile p &&
    ((p.fileName?.bind Text.decode?).any fun name => (e.languageFor? name).isSome)

/-- The paths of files below a directory, given by the names that lead to them. -/
def candidates (e : Editor) (directory : Path) (below : List (List Name)) : List Path :=
  ((below.filter (!isHidden ·)).map fun names => names.foldl Path.join directory).filter
    (isCandidate e)

def filesAt (e : Editor) (p : Path) : Task (List Path) := do
  if ← Task.isDirectory p then return candidates e p (← Task.filesBelow p) else return [p]

/-- The files that the paths stand for, added to an ascending list. -/
def collectInto (e : Editor) (found : List Path) : List Path → Task (List Path)
  | [] => return found
  | p :: ps => do
    let here ← filesAt e p
    collectInto e (here.foldl (fun found file => Path.insertOrdered file found) found) ps

/-- The files that the paths stand for, in ascending order and without repetition. -/
def collect (e : Editor) (ps : List Path) : Task (List Path) := collectInto e [] ps

end Masthead.CommandLine
