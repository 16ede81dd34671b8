import Masthead.Header.Rule
import Masthead.Task

/-!
# Documents

A file together with the rule for its header. Its text is either held in memory and never written,
or read from the file system and written back. A file is replaced by renaming a finished copy over
it.
-/
namespace Masthead.Header

inductive AccessMode where
  | content
  | path
  deriving DecidableEq, Repr

def AccessMode.text : AccessMode → Text
  | content => "content-mode".toList
  | path => "path-mode".toList

inductive Source where
  | held (content : Text)
  | onDisk
  deriving DecidableEq, Repr

inductive DocumentError where
  | invalidOperation (operation : Text) (mode : AccessMode)
  | comment (cause : Comment.CommentError)
  | io (path : Path) (cause : IoError)
  deriving DecidableEq, Repr

def DocumentError.message : DocumentError → Text
  | invalidOperation operation mode =>
    operation ++ " is not available for ".toList ++ mode.text ++ " documents".toList
  | comment cause => cause.message
  | io path cause => "Failed to access ".toList ++ path.shown ++ ": ".toList ++ cause.message

structure Document where
  path : Path
  source : Source
  rule : Rule
  deriving DecidableEq

/-- The path of the copy that is renamed over the file. Names that are shown alike have one copy. -/
def temporaryPath (p : Path) : Path :=
  p.withFileName (Text.encode (".".toList ++ p.fileName ++ ".lhm-tmp".toList))

/-- Gives the copy of a file the permissions that the file has, if it is there. -/
def copyPermissions (p : Path) : Task Unit := do
  match ← Task.permissions p with
  | some permissions => Task.setPermissions (temporaryPath p) permissions
  | none => return ()

/-- Replaces the content of a file. If it fails, no copy is left behind. -/
def replaceFile (p : Path) (content : Text) : Task (Except IoError Unit) := do
  let copy := temporaryPath p
  match ← Task.write copy content with
  | .error e =>
    Task.remove copy
    return .error e
  | .ok _ =>
    copyPermissions p
    match ← Task.rename copy p with
    | .error e =>
      Task.remove copy
      return .error e
    | .ok _ => return .ok ()

namespace Document

def load (d : Document) : Task (Except DocumentError Text) := do
  match d.source with
  | .held content => return .ok content
  | .onDisk => return (← Task.read d.path).mapError (.io d.path)

def reviseText (d : Document) (t : Text) : Except DocumentError Revision :=
  (d.rule.revise t).mapError .comment

/-- Revises the text of a document in memory. -/
def reviseContent (d : Document) : Except DocumentError Revision :=
  match d.source with
  | .held content => d.reviseText content
  | .onDisk => .error (.invalidOperation "rewrite_content".toList .path)

def store (d : Document) (new : Revision) : Task (Except DocumentError Unit) := do
  match d.source with
  | .held _ => return .error (.invalidOperation "store".toList .content)
  | .onDisk =>
    if new.action.isChange then
      return (← replaceFile d.path new.content).mapError (.io d.path)
    else return .ok ()

def reviseFile (d : Document) : Task (Except DocumentError Revision) := do
  match d.source with
  | .held _ => return .error (.invalidOperation "rewrite_file".toList .content)
  | .onDisk =>
    match ← d.load with
    | .error e => return .error e
    | .ok t =>
      match d.reviseText t with
      | .error e => return .error e
      | .ok new =>
        match ← d.store new with
        | .error e => return .error e
        | .ok _ => return .ok new

end Document
end Masthead.Header
