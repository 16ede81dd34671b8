import Masthead.Toml.Scalar

/-!
# TOML documents

A document is a sequence of lines that assign values to keys and of headers that name the table for
the assignments below them.
-/
namespace Masthead.Toml

def skipComment : Text → Except TomlError Text
  | '#' :: t =>
    let comment := t.takeWhile fun c => c != '\n' && c != '\r'
    if comment.all isPrintable then .ok (t.drop comment.length) else .error .malformed
  | t => .ok t

def skipFiller : (fuel : Nat) → Text → Except TomlError Text
  | 0, t => .ok t
  | fuel + 1, t => do
    let t ← skipComment (skipSpaces t)
    match newline? t with
    | some rest => skipFiller fuel rest
    | none => .ok t

def isBareKeyCharacter (c : Char) : Bool := c.isAlphanum || c == '_' || c == '-'

def readSimpleKey (t : Text) : Except TomlError (Text × Text) :=
  match t with
  | '"' :: t => readBasic (t.length + 1) t
  | '\'' :: t => readLiteral t
  | t =>
    let key := t.takeWhile isBareKeyCharacter
    if key = [] then .error .malformed else .ok (key, t.drop key.length)

/-- A key and the keys that follow it behind dots, with the spaces around them. -/
def readKey : (fuel : Nat) → Text → Except TomlError (List Text × Text)
  | 0, _ => .error .malformed
  | fuel + 1, t => do
    let (key, rest) ← readSimpleKey (skipSpaces t)
    match skipSpaces rest with
    | '.' :: rest =>
      let (keys, rest) ← readKey fuel rest
      .ok (key :: keys, rest)
    | rest => .ok ([key], rest)

/-- The value behind a key's equals sign, added to a table. -/
def assignPath (t : Table) (keys : List Text) (v : Value) : Except TomlError Table :=
  t.assign (keys.getLastD []) v keys.dropLast

mutual

def readValue : (fuel : Nat) → Text → Except TomlError (Value × Text)
  | 0, _ => .error .malformed
  | fuel + 1, t =>
    match readString? t with
    | some r => do
      let (s, rest) ← r
      .ok (.string s, rest)
    | none =>
      match t with
      | '[' :: t => do
        let (items, rest) ← readItems fuel t
        .ok (.array items, rest)
      | '\x7b' :: t => do
        let (entries, rest) ← readEntries fuel [] t
        .ok (.table .inline entries, rest)
      | t => readWord t

def readItems : (fuel : Nat) → Text → Except TomlError (List Value × Text)
  | 0, _ => .error .malformed
  | fuel + 1, t => do
    match ← skipFiller t.length t with
    | ']' :: rest => .ok ([], rest)
    | t =>
      let (v, rest) ← readValue fuel t
      match ← skipFiller rest.length rest with
      | ',' :: rest =>
        let (vs, rest) ← readItems fuel rest
        .ok (v :: vs, rest)
      | ']' :: rest => .ok ([v], rest)
      | _ => .error .malformed

def readEntries : (fuel : Nat) → Table → Text → Except TomlError (Table × Text)
  | 0, _, _ => .error .malformed
  | fuel + 1, entries, t => do
    match ← skipFiller t.length t with
    | '\x7d' :: rest => .ok (entries, rest)
    | t =>
      let (keys, rest) ← readKey t.length t
      match rest with
      | '=' :: rest =>
        let (v, rest) ← readValue fuel (skipSpaces rest)
        let entries ← assignPath entries keys v
        match ← skipFiller rest.length rest with
        | ',' :: rest => readEntries fuel entries rest
        | '\x7d' :: rest => .ok (entries, rest)
        | _ => .error .malformed
      | _ => .error .malformed

end

inductive Statement where
  | assign (keys : List Text) (v : Value)
  | header (isArray : Bool) (keys : List Text)

/-- What is left of a line behind a statement: spaces and a comment. -/
def finishLine (t : Text) : Except TomlError Text := do
  match ← skipComment (skipSpaces t) with
  | [] => .ok []
  | t =>
    match newline? t with
    | some rest => .ok rest
    | none => .error .malformed

def readStatement (t : Text) : Except TomlError (Statement × Text) :=
  match t with
  | '[' :: '[' :: t => do
    match ← readKey t.length t with
    | (keys, ']' :: ']' :: rest) => .ok (.header true keys, rest)
    | _ => .error .malformed
  | '[' :: t => do
    match ← readKey t.length t with
    | (keys, ']' :: rest) => .ok (.header false keys, rest)
    | _ => .error .malformed
  | t => do
    match ← readKey t.length t with
    | (keys, '=' :: rest) =>
      let (v, rest) ← readValue rest.length (skipSpaces rest)
      .ok (.assign keys v, rest)
    | _ => .error .malformed

def readStatements : (fuel : Nat) → Text → Except TomlError (List Statement)
  | 0, _ => .error .malformed
  | fuel + 1, t => do
    match ← skipFiller t.length t with
    | [] => .ok []
    | t =>
      let (statement, rest) ← readStatement t
      let rest ← finishLine rest
      let statements ← readStatements fuel rest
      .ok (statement :: statements)

abbrev Assignment := List Text × Value

/-- The assignments up to the first header, and the headers with the assignments below them. -/
def groups : List Statement → List Assignment × List (Bool × List Text × List Assignment)
  | [] => ([], [])
  | .assign keys v :: statements =>
    let (here, below) := groups statements
    ((keys, v) :: here, below)
  | .header isArray keys :: statements =>
    let (here, below) := groups statements
    ([], (isArray, keys, here) :: below)

def fill (assignments : List Assignment) (t : Table) : Except TomlError Table :=
  assignments.foldlM (fun t (keys, v) => assignPath t keys v) t

/-- The table that a document denotes. A byte order mark in front is ignored. -/
def parse (t : Text) : Except TomlError Table := do
  let t := match t with
    | '\ufeff' :: t => t
    | t => t
  let statements ← readStatements (t.length + 1) t
  let (top, sections) := groups statements
  let table ← fill top []
  sections.foldlM (fun table (isArray, keys, assignments) =>
    table.define isArray (fill assignments) keys) table

end Masthead.Toml
