import Masthead.CommandLine.Run
import Masthead.Report.Style

/-!
# Output

What a run writes to standard output and to standard error, and its exit code. A quiet run lists
only the paths that changed, one on a line.
-/
namespace Masthead.CommandLine

inductive Verbosity where
  | quiet
  | normal
  | verbose
  deriving DecidableEq, Repr

def Arguments.verbosity (a : Arguments) : Verbosity :=
  if 0 < a.verbose then .verbose else if a.quiet then .quiet else .normal

def ColorMode.isOn (mode : ColorMode) (isTerminal : Bool) : Bool :=
  match mode with
  | auto => isTerminal
  | never => false
  | always => true

structure Display where
  verbosity : Verbosity
  dryRun : Bool
  showDiffs : Bool
  /-- Paths below this directory are shown without it. -/
  root : Path
  coloredOut : Bool
  coloredErr : Bool
  /-- How long the run took, for verbose runs. -/
  elapsed : Text
  deriving DecidableEq, Repr

namespace Display

def line (t : Text) : Text := t ++ ['\n']

def files (count : Nat) : Text :=
  Text.ofNat count ++ (if count = 1 then " file".toList else " files".toList)

def isPathBefore (p q : Path) : Bool := (Path.order p q).isLE

variable (d : Display)

def shown (p : Path) : Text := ((d.root.relativeTo? p).getD p).shown

def startLine (count : Nat) : Text :=
  let verb := if d.dryRun then "Checking ".toList else "Processing ".toList
  if d.verbosity = .quiet then [] else line (verb ++ files count ++ "...".toList)

/-- How many files of a group are listed, except in verbose runs. -/
def listLimit : Nat := 20

structure Group where
  symbol : Text
  done : Text
  planned : Text
  paths : List Path

def groups (s : Report.Summary) : List Group :=
  [⟨"✓".toList, "Inserted header in ".toList, "Would insert header in ".toList, s.inserted⟩,
    ⟨"↻".toList, "Replaced header in ".toList, "Would replace header in ".toList, s.replaced⟩,
    ⟨"-".toList, "Removed header from ".toList, "Would remove header from ".toList, s.removed⟩]

def moreLine (count : Nat) : Text :=
  line ("  ".toList ++ Report.Style.dimmed.paint d.coloredOut [] ++ " ... and ".toList ++
    Text.ofNat count ++ " more (use -v to see all)".toList)

def group (g : Group) : Text :=
  let paths := (g.paths.mergeSort isPathBefore).map d.shown
  let count := paths.length
  let limit := if d.verbosity = .verbose then count else listLimit
  if count = 0 then []
  else if d.verbosity = .quiet then paths.flatMap line
  else
    line (Report.Style.green.paint d.coloredOut g.symbol ++ " ".toList ++
      (if d.dryRun then g.planned else g.done) ++ files count ++ ":".toList) ++
    (paths.take limit).flatMap (fun p => line ("  ".toList ++ p)) ++
    (if limit < count then d.moreLine (count - limit) else [])

def summaryLine (s : Report.Summary) : Text :=
  let number (style : Report.Style) (n : Nat) := style.paint d.coloredOut (Text.ofNat n)
  let failed := s.failures.length
  if d.verbosity = .quiet then []
  else line ("Summary: ".toList ++ number .cyan s.changedCount ++
    (if d.dryRun then " to change, ".toList else " changed, ".toList) ++
    Text.ofNat s.unchanged ++ " unchanged, ".toList ++ number .dimmed s.skipped ++
    " skipped, ".toList ++ number (if failed = 0 then .cyan else .red) failed ++
    " failed".toList ++
    (if d.verbosity = .verbose then " (".toList ++ d.elapsed ++ ")".toList else []))

/-- The files would change, so a run that is not dry is worth while. -/
def wouldChange (s : Report.Summary) : Bool := d.dryRun && 0 < s.changedCount

def hintLine (s : Report.Summary) : Text :=
  if d.verbosity ≠ .quiet && d.wouldChange s then
    line (Report.Style.yellow.paint d.coloredOut
      "Run with --modify to apply these changes.".toList)
  else []

def failureLines (failures : List Editor.Failure) : Text :=
  let sorted := failures.mergeSort fun f g => isPathBefore f.path g.path
  if sorted = [] then []
  else line (Report.Style.red.paint d.coloredErr
      ("✗ ".toList ++ files sorted.length ++ " failed:".toList)) ++
    sorted.flatMap fun f => line ("  [".toList ++ f.kind.text ++ "] ".toList ++ f.message)

def diffLine (l : Text) : Text :=
  match l.head? with
  | some '+' => Report.Style.green.paint d.coloredErr l
  | some '-' => Report.Style.red.paint d.coloredErr l
  | _ => l

def cutAtFeeds (t : Text) : List Text :=
  let pieces := Text.splitAll (· == '\n') t
  pieces.dropLast.map line ++ pieces.getLast?.toList.filter (· ≠ [])

/-- Sets off the first line of a text with `first`, and the others with `others`. -/
def indent (first others : Text) (t : Text) : Text :=
  first ++ Text.join ('\n' :: others) (Text.splitAll (· == '\n') t)

def causeLines (causes : List Text) : Text :=
  match causes with
  | [] => []
  | [cause] => "\nCaused by:\n".toList ++ line (indent "    ".toList "    ".toList cause)
  | causes =>
    "\nCaused by:\n".toList ++ causes.zipIdx.flatMap fun (cause, i) =>
      line (indent ("    ".toList ++ Text.ofNat i ++ ": ".toList) "       ".toList cause)

def errorLines (e : RunError) : Text :=
  line ("Error: ".toList ++ e.message) ++ causeLines e.causes

def progressLine (p : Editor.Progress) : Text :=
  line ("[".toList ++ Text.ofNat p.processed ++ "/".toList ++ Text.ofNat p.total ++
    "] ".toList ++ p.path.shown)

def output (r : Run) : Text :=
  ((r.fileCount.map d.startLine).getD []) ++
  match r.treatment.ending with
  | .finished s => (groups s).flatMap d.group ++ d.summaryLine s ++ d.hintLine s
  | _ => []

def interruption : Editor.BatchError → Text
  | .cancelled => "Cancelled, some files may not have been processed.".toList
  | e => e.message

def errors (r : Run) : Text :=
  (if d.verbosity = .verbose then
    r.notes.flatMap (fun n => line n.text) ++ r.treatment.events.flatMap progressLine
  else []) ++
  (if d.showDiffs then (r.treatment.diffs.flatMap cutAtFeeds).flatMap d.diffLine else []) ++
  match r.treatment.ending with
  | .finished s => d.failureLines s.failures
  | .stopped e => errorLines e
  | .interrupted e => line (Report.Style.red.paint d.coloredErr (interruption e))

end Display

/-- A run succeeds if no file failed and, when it is dry, none would change. -/
def Run.exitCode (r : Run) (dryRun : Bool) : Nat :=
  match r.treatment.ending with
  | .finished s => if s.failures = [] && !(dryRun && 0 < s.changedCount) then 0 else 1
  | .stopped _ => 1
  | .interrupted .cancelled => 130
  | .interrupted .gateTooWide => 101

def Arguments.display (a : Arguments) (root : Path) (outIsTerminal errIsTerminal : Bool)
    (elapsed : Text) : Display where
  verbosity := a.verbosity
  dryRun := !a.modify
  showDiffs := a.showDiff
  root := root
  coloredOut := a.colors.isOn outIsTerminal
  coloredErr := a.colors.isOn errIsTerminal
  elapsed := elapsed

end Masthead.CommandLine
