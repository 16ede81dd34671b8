import Masthead.Text.Encoding

/-!
# Paths

A path is a string of bytes whose components are separated by slashes. Empty components, and dots
other than a leading one, count for nothing: paths with the same components name the same file, and
paths are ordered by their components. The bytes need not encode a text.
-/
namespace Masthead

abbrev Path := List UInt8

/-- What stands between the slashes of a path. -/
abbrev Name := List UInt8

namespace Name

def dot : Name := [46]

def dots : Name := [46, 46]

def isHidden (n : Name) : Bool := (Text.decode? n).any (·.head? == some '.')

end Name

namespace Path

def slash : UInt8 := 47

/-- The path that a text spells. -/
def ofText (t : Text) : Path := t.encode

def shown (p : Path) : Text := Text.decode p

inductive Component where
  | root
  | here
  | up
  | name (name : Name)
  deriving DecidableEq, Repr

def Component.ofPiece (piece : Name) : Component :=
  if piece = Name.dot then here else if piece = Name.dots then up else name piece

def Component.bytes : Component → Name
  | root => []
  | here => Name.dot
  | up => Name.dots
  | name n => n

/-- The non-empty names between slashes. -/
def pieces (p : Path) : List Name := (Text.splitAll (· == slash) p).filter (· ≠ [])

def isAbsolute (p : Path) : Bool := p.head? == some slash

def endsWithSlash (p : Path) : Bool := p.getLast? == some slash

def components (p : Path) : List Component :=
  let all := p.pieces.map Component.ofPiece
  if p.isAbsolute then .root :: all.filter (· ≠ .here)
  else match all with
    | .here :: rest => .here :: rest.filter (· ≠ .here)
    | all => all.filter (· ≠ .here)

def ofComponents (cs : List Component) : Path :=
  if cs = [.root] then [slash] else Text.join [slash] (cs.map Component.bytes)

/-- The name that a path ends in, if it ends in a name. -/
def fileName? (p : Path) : Option Name :=
  match p.components.getLast? with
  | some (.name n) => some n
  | _ => none

/-- How the name that a path ends in is shown; the empty text if there is none. -/
def fileName (p : Path) : Text := Text.decode (p.fileName?.getD [])

/-- A path taken below a directory; an absolute path stays as it is. -/
def join (directory p : Path) : Path :=
  if p.isAbsolute || directory = [] then p
  else if directory.endsWithSlash then directory ++ p
  else directory ++ slash :: p

/-- The path of `name` in the same directory; a path without a file name is taken for a directory. -/
def withFileName (p : Path) (name : Name) : Path :=
  match p.fileName? with
  | some _ => join (ofComponents p.components.dropLast) name
  | none => join p name

/-- What follows the components of `root` at the front of a path. -/
def relativeTo? (root p : Path) : Option Path :=
  (root.components.isPrefixOf? p.components).map ofComponents

/-- Names come behind the other components and are ordered by their bytes. -/
def Component.key : Component → List Nat
  | root => [0]
  | here => [1]
  | up => [2]
  | name n => 3 :: n.map UInt8.toNat

def order (p q : Path) : Ordering :=
  compare (p.components.map Component.key) (q.components.map Component.key)

/-- Inserts a path into an ascending list unless a path with the same components is there. -/
def insertOrdered (p : Path) : List Path → List Path
  | [] => [p]
  | q :: qs =>
    match order p q with
    | .lt => p :: q :: qs
    | .eq => q :: qs
    | .gt => q :: insertOrdered p qs

end Path
end Masthead
