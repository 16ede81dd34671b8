import Masthead.Editor.Failure

namespace Masthead.Report

structure Summary where
  inserted : List Path
  replaced : List Path
  removed : List Path
  unchanged : Nat
  /-- Files that needed no editing. -/
  skipped : Nat
  failures : List Editor.Failure
  deriving DecidableEq, Repr

namespace Summary

def empty : Summary := ⟨[], [], [], 0, 0, []⟩

def changedCount (s : Summary) : Nat :=
  s.inserted.length + s.replaced.length + s.removed.length

/-- The number of files that a summary accounts for. -/
def total (s : Summary) : Nat := s.changedCount + s.unchanged + s.skipped + s.failures.length

def recordAction (s : Summary) (path : Path) : Header.Action → Summary
  | .inserted => { s with inserted := s.inserted ++ [path] }
  | .replaced => { s with replaced := s.replaced ++ [path] }
  | .removed => { s with removed := s.removed ++ [path] }
  | .unchanged => { s with unchanged := s.unchanged + 1 }

/-- Failures for which there was nothing to do count as skipped. -/
def recordFailure (s : Summary) (f : Editor.Failure) : Summary :=
  if f.kind.isSkip then { s with skipped := s.skipped + 1 }
  else { s with failures := s.failures ++ [f] }

theorem total_recordAction (s : Summary) (path : Path) (a : Header.Action) :
    (s.recordAction path a).total = s.total + 1 := by
  cases a <;> simp [recordAction, total, changedCount] <;> omega

theorem total_recordFailure (s : Summary) (f : Editor.Failure) :
    (s.recordFailure f).total = s.total + 1 := by
  unfold recordFailure
  split <;> simp [total, changedCount] <;> omega

end Summary
end Masthead.Report
