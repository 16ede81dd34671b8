import Masthead.Text

/-!
# TOML values

The values of a TOML document, and how its tables are put together. A table can be defined once. How
it came about decides what may still be added to it.
-/
namespace Masthead.Toml

inductive Origin where
  /-- In braces, as a value. -/
  | inline
  /-- By a header of its own. -/
  | header
  /-- By the header of a table inside it. -/
  | implied
  /-- By a dotted key. -/
  | dotted
  deriving DecidableEq, Repr

inductive Value where
  | string (t : Text)
  | integer (n : Int)
  | float (written : Text)
  | boolean (b : Bool)
  | dateTime (written : Text)
  | array (items : List Value)
  /-- An array that headers in double brackets extend. -/
  | tables (items : List (List (Text × Value)))
  | table (origin : Origin) (entries : List (Text × Value))
  deriving Repr

abbrev Table := List (Text × Value)

inductive TomlError where
  | malformed
  | duplicateKey (key : Text)
  | wrongType (expected : Text)
  | missingField (name : Text)
  deriving DecidableEq, Repr

namespace TomlError

def message : TomlError → Text
  | malformed => "malformed document".toList
  | duplicateKey key => "duplicate key: ".toList ++ key
  | wrongType expected => "invalid type, expected ".toList ++ expected
  | missingField name => "missing field: ".toList ++ name

end TomlError

namespace Table

def get? (key : Text) (t : Table) : Option Value := t.lookup key

def set (key : Text) (v : Value) : Table → Table
  | [] => [(key, v)]
  | entry :: t => if entry.1 = key then (key, v) :: t else entry :: set key v t

/-- Adds a new key below the tables that a dotted key leads through. -/
def assign (key : Text) (v : Value) : List Text → Table → Except TomlError Table
  | [], t =>
    match t.get? key with
    | some _ => .error (.duplicateKey key)
    | none => .ok (t.set key v)
  | outer :: path, t =>
    match t.get? outer with
    | none => do
      let inner ← assign key v path []
      .ok (t.set outer (.table .dotted inner))
    | some (.table .dotted entries) => do
      let inner ← assign key v path entries
      .ok (t.set outer (.table .dotted inner))
    | some _ => .error (.duplicateKey outer)

/-- Fills the table that a header names: a new one, one that so far was only implied, or, for a
header in double brackets, a new last one of an array. -/
def define (isArray : Bool) (fill : Table → Except TomlError Table) :
    List Text → Table → Except TomlError Table
  | [], _ => .error .malformed
  | [key], t =>
    match t.get? key with
    | none => do
      let body ← fill []
      .ok (t.set key (if isArray then .tables [body] else .table .header body))
    | some (.table .implied entries) =>
      if isArray then .error (.duplicateKey key)
      else do
        let body ← fill entries
        .ok (t.set key (.table .header body))
    | some (.tables items) =>
      if isArray then do
        let body ← fill []
        .ok (t.set key (.tables (items ++ [body])))
      else .error (.duplicateKey key)
    | some _ => .error (.duplicateKey key)
  | key :: path, t =>
    match t.get? key with
    | none => do
      let inner ← define isArray fill path []
      .ok (t.set key (.table .implied inner))
    | some (.table .inline _) => .error (.duplicateKey key)
    | some (.table origin entries) => do
      let inner ← define isArray fill path entries
      .ok (t.set key (.table origin inner))
    | some (.tables items) => do
      let inner ← define isArray fill path (items.getLastD [])
      .ok (t.set key (.tables (items.dropLast ++ [inner])))
    | some _ => .error (.duplicateKey key)

end Table
end Masthead.Toml
