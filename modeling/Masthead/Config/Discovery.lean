import Masthead.Config.Basic
import Masthead.Task

/-!
# Finding the configuration

A path that was asked for wins over the path in the environment, and that one over the file with
the usual name in the root directory. Only a path that was asked for may lead nowhere, so that
loading it fails.
-/
namespace Masthead.Config

inductive Source where
  | flag
  | environment
  | root
  deriving DecidableEq, Repr

def Source.name : Source → Text
  | flag => "Flag".toList
  | environment => "Environment".toList
  | root => "Local".toList

def environmentVariable : Text := "LHM_CONFIG".toList

def usualName : Text := ".lhm.toml".toList

structure Discovery where
  /-- The path in the environment, if it names no file. -/
  ignored : Option Path
  found : Option (Path × Source)
  deriving DecidableEq, Repr

def discoverInRoot (root : Path) : Task (Option (Path × Source)) := do
  let usual := root.join usualName.encode
  return if ← Task.isFile usual then some (usual, .root) else none

def discover (asked fromEnvironment : Option Path) (root : Path) : Task Discovery := do
  match asked, fromEnvironment.filter (· ≠ []) with
  | some p, _ => return ⟨none, some (p, .flag)⟩
  | none, none => return ⟨none, ← discoverInRoot root⟩
  | none, some p =>
    if ← Task.isFile p then return ⟨none, some (p, .environment)⟩
    else return ⟨some p, ← discoverInRoot root⟩

def load (path : Path) : Task (Except ConfigError Config) := do
  match ← Task.read path with
  | .error cause => return .error (.read path cause)
  | .ok t => return parse path t

end Masthead.Config
