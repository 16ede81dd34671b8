import Masthead.Path
import Masthead.Calendar

/-!
# File systems

A tree of directories and files, and what reading, writing, renaming and removing do to it. An
operation that fails leaves the tree alone, except that a write may fail after it has emptied the
file.
-/
namespace Masthead

inductive IoError where
  | notFound
  | busy
  | notADirectory
  | isADirectory
  | nameTooLong
  | nulInName
  | permissionDenied
  | notUtf8
  | other (text : Text)
  deriving DecidableEq, Repr

namespace IoError

def message : IoError → Text
  | notFound => "No such file or directory (os error 2)".toList
  | busy => "Device or resource busy (os error 16)".toList
  | notADirectory => "Not a directory (os error 20)".toList
  | isADirectory => "Is a directory (os error 21)".toList
  | nameTooLong => "File name too long (os error 36)".toList
  | nulInName => "file name contained an unexpected NUL byte".toList
  | permissionDenied => "Permission denied (os error 13)".toList
  | notUtf8 => "stream did not contain valid UTF-8".toList
  | other text => text

end IoError

/-- The content of a file: a text, or bytes that encode none. -/
inductive Content where
  | text (t : Text)
  | bytes (bs : List UInt8)
  deriving DecidableEq, Repr

/-- Bytes that encode no text still encode none with a text behind them. -/
def Content.append : Content → Text → Content
  | text s, t => text (s ++ t)
  | bytes bs, t => bytes (bs ++ t.encode)

def Content.decoded : Content → Except IoError Text
  | text t => .ok t
  | bytes _ => .error .notUtf8

/-- Whether a file may be opened for writing. It can be renamed, replaced and removed all the same. -/
structure Permissions where
  readOnly : Bool := false
  deriving DecidableEq, Repr

/-- A file keeps its permissions and its birth time when it is renamed. -/
structure File where
  content : Content
  permissions : Permissions := {}
  born : Option Moment := none
  deriving DecidableEq, Repr

inductive Node where
  | file (file : File)
  | directory
  deriving DecidableEq, Repr

inductive EntryKind where
  | file
  | directory
  deriving DecidableEq, Repr

def Node.kind : Node → EntryKind
  | file _ => .file
  | directory => .directory

/-- The names that lead from the root to an entry. -/
abbrev Location := List Name

/-- A location at which writes or renames end in an error. -/
structure Fault where
  location : Location
  onRename : Bool
  error : IoError
  deriving DecidableEq, Repr

structure FileSystem where
  entries : List (Location × Node)
  workingDirectory : Location
  /-- The birth times of directories. -/
  birthTimes : List (Location × Moment) := []
  /-- The birth time of the files that are created, if they get one. -/
  clock : Option Moment := none
  faults : List Fault := []
  deriving DecidableEq

namespace FileSystem

/-- The root is a directory, whether it is listed or not. -/
def nodeAt? (fs : FileSystem) (location : Location) : Option Node :=
  if location = [] then some .directory else fs.entries.lookup location

def putEntry (location : Location) (node : Node) : List (Location × Node) → List (Location × Node)
  | [] => [(location, node)]
  | entry :: entries =>
    if entry.1 = location then (location, node) :: entries
    else entry :: putEntry location node entries

def put (fs : FileSystem) (location : Location) (node : Node) : FileSystem :=
  { fs with entries := putEntry location node fs.entries }

def erase (fs : FileSystem) (location : Location) : FileSystem :=
  { fs with entries := fs.entries.filter (·.1 ≠ location) }

def fault? (fs : FileSystem) (onRename : Bool) (location : Location) : Option IoError :=
  (fs.faults.find? fun f => f.location = location && f.onRename == onRename).map (·.error)

/-- Where a path leads. -/
inductive Place where
  | existing (location : Location) (node : Node)
  | vacant (location : Location)

def nameLimit : Nat := 255

def pathLimit : Nat := 4095

/-- Follows the pieces of a path from `here` on. Only the last one may lead nowhere. -/
def follow (fs : FileSystem) (here : Location) : List Name → Except IoError Place
  | [] =>
    match fs.nodeAt? here with
    | some node => .ok (.existing here node)
    | none => .error .notFound
  | piece :: rest =>
    match fs.nodeAt? here with
    | none => .error .notFound
    | some (.file _) => .error .notADirectory
    | some .directory =>
      if piece = Name.dot then follow fs here rest
      else if piece = Name.dots then follow fs here.dropLast rest
      else if nameLimit < piece.length then .error .nameTooLong
      else if rest = [] && (fs.nodeAt? (here ++ [piece])).isNone then
        .ok (.vacant (here ++ [piece]))
      else follow fs (here ++ [piece]) rest

def locate (fs : FileSystem) (p : Path) : Except IoError Place :=
  if List.elem 0 p then .error .nulInName
  else if p = [] then .error .notFound
  else if pathLimit < p.length then .error .nameTooLong
  else fs.follow (if p.isAbsolute then [] else fs.workingDirectory) p.pieces

/-- The entry that a path names. A path that ends in a slash names directories only. -/
def entry (fs : FileSystem) (p : Path) : Except IoError (Location × Node) := do
  match ← fs.locate p with
  | .vacant _ => .error .notFound
  | .existing location node =>
    if p.endsWithSlash && node.kind = .file then .error .notADirectory
    else .ok (location, node)

def kind? (fs : FileSystem) (p : Path) : Option EntryKind :=
  match fs.entry p with
  | .ok (_, node) => some node.kind
  | .error _ => none

def birthTime? (fs : FileSystem) (p : Path) : Option Moment :=
  match fs.entry p with
  | .ok (_, .file file) => file.born
  | .ok (location, .directory) => fs.birthTimes.lookup location
  | .error _ => none

def readText (fs : FileSystem) (p : Path) : Except IoError Text := do
  match (← fs.entry p).2 with
  | .directory => .error .isADirectory
  | .file file => file.content.decoded

def permissions? (fs : FileSystem) (p : Path) : Option Permissions :=
  match fs.entry p with
  | .ok (_, .file file) => some file.permissions
  | .ok (_, .directory) => some {}
  | .error _ => none

/-- The location at which a file is opened for writing, with the file there or a new one. -/
def openForWriting (fs : FileSystem) (p : Path) : Except IoError (Location × File) := do
  let place ← fs.locate p
  if p.endsWithSlash then .error .isADirectory
  else match place with
    | .existing _ .directory => .error .isADirectory
    | .existing location (.file file) =>
      if file.permissions.readOnly then .error .permissionDenied else .ok (location, file)
    | .vacant location => .ok (location, { content := .text [], born := fs.clock })

/-- Opens a file, which is created if need be, and adds a text to what is left of its content.
Faults show only when there is something to write. -/
def store (fs : FileSystem) (p : Path) (opened : Content → Content) (t : Text) :
    Except IoError Unit × FileSystem :=
  match fs.openForWriting p with
  | .error e => (.error e, fs)
  | .ok (location, file) =>
    match if t = [] then none else fs.fault? false location with
    | some e => (.error e, fs.put location (.file { file with content := opened file.content }))
    | none =>
      (.ok (), fs.put location (.file { file with content := (opened file.content).append t }))

def writeText (fs : FileSystem) (p : Path) (t : Text) : Except IoError Unit × FileSystem :=
  fs.store p (fun _ => .text []) t

def appendText (fs : FileSystem) (p : Path) (t : Text) : Except IoError Unit × FileSystem :=
  fs.store p id t

def setPermissions (fs : FileSystem) (p : Path) (permissions : Permissions) : FileSystem :=
  match fs.entry p with
  | .ok (location, .file file) => fs.put location (.file { file with permissions })
  | _ => fs

/-- The location that a file takes when it is renamed to `p`. -/
def renameTarget (fs : FileSystem) (p : Path) : Except IoError Location := do
  let place ← fs.locate p
  let named := match p.pieces.getLast? with
    | some piece => piece ≠ Name.dot && piece ≠ Name.dots
    | none => false
  if !named then .error .busy
  else if p.endsWithSlash then .error .notADirectory
  else match place with
    | .existing _ .directory => .error .isADirectory
    | .existing location (.file _) => .ok location
    | .vacant location => .ok location

def rename (fs : FileSystem) (source target : Path) : Except IoError Unit × FileSystem :=
  match fs.entry source with
  | .error e => (.error e, fs)
  | .ok (start, node) =>
    match fs.renameTarget target with
    | .error e => (.error e, fs)
    | .ok stop =>
      match fs.fault? true stop with
      | some e => (.error e, fs)
      | none => (.ok (), if start = stop then fs else (fs.erase start).put stop node)

def removeFile (fs : FileSystem) (p : Path) : FileSystem :=
  match fs.entry p with
  | .ok (location, .file _) => fs.erase location
  | _ => fs

/-- The names that lead from a directory to the regular files below it. -/
def filesBelow (fs : FileSystem) (p : Path) : List (List Name) :=
  match fs.entry p with
  | .ok (location, .directory) =>
    fs.entries.filterMap fun (below, node) =>
      match location.isPrefixOf? below, node with
      | some names, .file _ => if names = [] then none else some names
      | _, _ => none
  | _ => []

def makeDirectory (fs : FileSystem) (location : Location) : FileSystem :=
  (List.range location.length).foldl (fun fs n =>
    let location := location.take (n + 1)
    if (fs.nodeAt? location).isSome then fs else fs.put location .directory) fs

def place (fs : FileSystem) (location : Location) (node : Node) : FileSystem :=
  match node with
  | .directory => fs.makeDirectory location
  | .file _ => (fs.makeDirectory location.dropLast).put location node

end FileSystem
end Masthead
