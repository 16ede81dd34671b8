import Std.Time.DateTime.Timestamp
import Masthead.CommandLine.Output
import Masthead.CommandLine.Usage

/-!
# The program

Performs the file operations of a run on the disk, and prints what the run has to say.
-/
namespace Masthead

def IoError.ofDisk : IO.Error → IoError
  | .noFileOrDirectory .. => .notFound
  | .resourceBusy .. => .busy
  | .permissionDenied .. => .permissionDenied
  | .inappropriateType _ 20 _ => .notADirectory
  | .inappropriateType _ 21 _ => .isADirectory
  | .invalidArgument _ 36 _ => .nameTooLong
  | e => .other e.toString.toList

def attempt {α : Type} (action : IO α) : IO (Except IoError α) := do
  match ← action.toBaseIO with
  | .ok a => return .ok a
  | .error e => return .error (.ofDisk e)

def entryKind? (p : Path) : IO (Option EntryKind) := do
  let place := (← IO.currentDir) / p.shown.toString
  match ← attempt place.metadata with
  | .ok data => return if data.type == .dir then some .directory else some .file
  | .error _ => return none

def readText (p : Path) : IO (Except IoError Text) := do
  match ← attempt (IO.FS.readBinFile p.shown.toString) with
  | .error e => return .error e
  | .ok bytes =>
    match String.fromUTF8? bytes with
    | some s => return .ok s.toList
    | none => return .error .notUtf8

def appendText (p : Path) (t : Text) : IO Unit := do
  (← IO.FS.Handle.mk p.shown.toString .append).putStr t.toString

/-- The names that lead to regular files, of which links are none. -/
partial def namesBelow (p : Path) : IO (List (List Name)) := do
  let place := (← IO.currentDir) / p.shown.toString
  let mut found := []
  for entry in ← place.readDir do
    let name := Text.encode entry.fileName.toList
    let data ← entry.path.symlinkMetadata
    if data.type == .file then found := [name] :: found
    else if data.type == .dir then
      found := (← namesBelow (p.join name)).map (name :: ·) ++ found
  return found

def FileOperation.perform : (op : FileOperation) → IO op.Answer
  | kind p => entryKind? p
  | birthTime _ => return none
  | read p => Masthead.readText p
  | write p t => attempt (IO.FS.writeFile p.shown.toString t.toString)
  | append p t => attempt (Masthead.appendText p t)
  | permissions _ => return none
  | setPermissions _ _ => return ()
  | rename source target => attempt (IO.FS.rename source.shown.toString target.shown.toString)
  | remove p => do let _ ← attempt (IO.FS.removeFile p.shown.toString)
  | filesBelow p => do
    match ← attempt (namesBelow p) with
    | .ok names => return names
    | .error _ => return []

def Task.perform {α : Type} : Task α → IO α
  | done a => return a
  | call op next => do (next (← op.perform)).perform

namespace CommandLine

def environmentText (name : String) : IO (Option Text) :=
  return (← IO.getEnv name).map String.toList

def currentEnvironment : IO Environment := do
  let now : Moment := ⟨(← Std.Time.Timestamp.now).toSecondsSinceUnixEpoch.val⟩
  let surroundings := .ofUsers now (← environmentText "USER") (← environmentText "USERNAME")
  let configPath ← environmentText Config.environmentVariable.toString
  return { workingDirectory := Path.ofText (← IO.currentDir).toString.toList
           configPath := configPath.map Path.ofText
           surroundings }

def secondsText (milliseconds : Nat) : Text :=
  let hundredths := (milliseconds + 5) / 10
  let fraction := Text.ofNat (100 + hundredths % 100)
  Text.ofNat (hundredths / 100) ++ '.' :: fraction.drop 1 ++ ['s']

def perform (a : Arguments) : IO UInt32 := do
  let env ← currentEnvironment
  let started ← IO.monoMsNow
  let r ← (run a env).perform
  let elapsed := secondsText ((← IO.monoMsNow) - started)
  let out ← IO.getStdout
  let err ← IO.getStderr
  let d := a.display env.workingDirectory (← out.isTty) (← err.isTty) elapsed
  out.putStr (d.output r).toString
  err.putStr (d.errors r).toString
  return (r.exitCode d.dryRun).toUInt32

end CommandLine
end Masthead

def main (args : List String) : IO UInt32 := do
  match Masthead.CommandLine.Arguments.parse (args.map String.toList) with
  | .ok a => Masthead.CommandLine.perform a
  | .error e =>
    let message := e.message.toString
    if e.isRequest then IO.println message; return 0
    else IO.eprintln ("error: " ++ message); return 2
