import Masthead.CommandLine.Parameter
import Masthead.Path

/-!
# Arguments

What a command line asks for, and how its arguments are read. A parameter's values are checked when
the next parameter begins, so an unknown name is reported before a bad value in front of it.
Conflicts are looked for when all arguments have been read, and missing ones after that.
-/
namespace Masthead.CommandLine

inductive ColorMode where
  | auto
  | never
  | always
  deriving DecidableEq, Repr

def ColorMode.all : List ColorMode := [auto, never, always]

def ColorMode.name : ColorMode → Text
  | auto => "auto".toList
  | never => "never".toList
  | always => "always".toList

structure Arguments where
  paths : List Path
  definition : Option Path
  remove : Bool
  modify : Bool
  showDiff : Bool
  saveDiff : Option Path
  keywords : List Text
  properties : List Text
  ignoreNonCommentText : Bool
  maxParallelism : Option Nat
  config : Option Path
  noConfig : Bool
  verbose : Nat
  quiet : Bool
  colors : ColorMode
  deriving DecidableEq, Repr

inductive UsageError where
  | missingRequired
  | conflict
  | unknown
  | invalidValue
  | badNumber
  | unwantedValue
  | helpAsked
  | versionAsked
  deriving DecidableEq, Repr

namespace Arguments

def empty : Arguments :=
  { paths := [], definition := none, remove := false, modify := false, showDiff := false
    saveDiff := none, keywords := [], properties := [], ignoreNonCommentText := false
    maxParallelism := none, config := none, noConfig := false, verbose := 0, quiet := false
    colors := .auto }

def verboseLimit : Nat := 255

def countLimit : Nat := 18446744073709551615

def asPath (t : Text) : Except UsageError Path :=
  if t = [] then .error .invalidValue else .ok (Path.ofText t)

def digitsValue (t : Text) : Nat := t.foldl (fun n c => 10 * n + (c.toNat - '0'.toNat)) 0

/-- Digits, perhaps behind a plus sign, that denote a positive count. -/
def asCount (t : Text) : Except UsageError Nat :=
  let digits := match t with
    | '+' :: digits => digits
    | digits => digits
  if digits ≠ [] ∧ digits.all Char.isDigit ∧ 1 ≤ digitsValue digits ∧
      digitsValue digits ≤ countLimit then .ok (digitsValue digits)
  else .error .badNumber

def asColorMode (t : Text) : Except UsageError ColorMode :=
  match ColorMode.all.find? (·.name = t) with
  | some mode => .ok mode
  | none => .error .invalidValue

/-- The arguments with one more value for a parameter. -/
def put (a : Arguments) (p : Parameter) (value : Text) : Except UsageError Arguments :=
  match p with
  | .paths => do return { a with paths := a.paths ++ [← asPath value] }
  | .definition => do return { a with definition := some (← asPath value) }
  | .remove => return { a with remove := true }
  | .modify => return { a with modify := true }
  | .showDiff => return { a with showDiff := true }
  | .saveDiff => do return { a with saveDiff := some (← asPath value) }
  | .keyword => return { a with keywords := a.keywords ++ [value] }
  | .property => return { a with properties := a.properties ++ [value] }
  | .ignoreNonCommentText => return { a with ignoreNonCommentText := true }
  | .maxParallelism => do return { a with maxParallelism := some (← asCount value) }
  | .config => do return { a with config := some (← asPath value) }
  | .noConfig => return { a with noConfig := true }
  | .verbose => return { a with verbose := min (a.verbose + 1) verboseLimit }
  | .quiet => return { a with quiet := true }
  | .colors => do return { a with colors := ← asColorMode value }
  | .help => .error .helpAsked
  | .version => .error .versionAsked

end Arguments

structure Reading where
  arguments : Arguments
  given : List Parameter
  /-- The parameter that waits for values, with those that it has got. -/
  pending : Option (Parameter × List Text)
  deriving DecidableEq, Repr

namespace Reading

def start : Reading := ⟨.empty, [], none⟩

def assign (r : Reading) (p : Parameter) (values : List Text) : Except UsageError Reading := do
  let values ← match values, p.impliedValue? with
    | [], none => .error .invalidValue
    | [], some implied => .ok [implied]
    | values, _ => .ok values
  if p ∈ r.given && !p.isRepeatable then .error .conflict
  else
    let arguments ← values.foldlM (fun a value => a.put p value) r.arguments
    .ok ⟨arguments, p :: r.given, none⟩

def settle (r : Reading) : Except UsageError Reading :=
  match r.pending with
  | none => .ok r
  | some (p, values) => r.assign p values

/-- A parameter is given, perhaps with a value. -/
def give (r : Reading) (p : Parameter) (value : Option Text) : Except UsageError Reading := do
  let r ← r.settle
  match value with
  | some value => r.assign p [value]
  | none => if p.takesValue then .ok { r with pending := some (p, []) } else r.assign p []

def readLong (r : Reading) (name : Text) (value : Option Text) : Except UsageError Reading :=
  match Parameter.ofName? name with
  | none => .error .unknown
  | some p => if value.isSome && !p.takesValue then .error .unwantedValue else r.give p value

/-- The first letter that takes a value takes what follows, less an equals sign in front. -/
def readCluster (r : Reading) : Text → Except UsageError Reading
  | [] => .ok r
  | c :: rest =>
    match Parameter.ofLetter? c with
    | none => .error .unknown
    | some p =>
      if p.takesValue then
        r.give p (match rest with
          | [] => none
          | '=' :: value => some value
          | value => some value)
      else do (← r.give p none).readCluster rest

def readPath (r : Reading) (t : Text) : Except UsageError Reading :=
  match r.pending with
  | some (.paths, values) => .ok { r with pending := some (.paths, values ++ [t]) }
  | _ => do .ok { ← r.settle with pending := some (.paths, [t]) }

/-- Takes an argument for the value that is waited for, or else for a path. -/
def readPlain (r : Reading) (t : Text) : Except UsageError Reading :=
  match r.pending with
  | some (p, []) => .ok { r with pending := some (p, [t]) }
  | _ => r.readPath t

def readAll (r : Reading) : List Text → Except UsageError Reading
  | [] => r.settle
  | t :: ts =>
    match Form.ofText t with
    | .separator => do (← ts.foldlM readPath r).settle
    | .long name value => do (← r.readLong name value).readAll ts
    | .cluster letters => do (← r.readCluster letters).readAll ts
    | .plain => do (← r.readPlain t).readAll ts

def check (r : Reading) : Except UsageError Unit :=
  if Parameter.conflicts.any fun (p, q) => p ∈ r.given && q ∈ r.given then .error .conflict
  else if .paths ∈ r.given && (.definition ∈ r.given || .remove ∈ r.given) then .ok ()
  else .error .missingRequired

end Reading

def Arguments.parse (ts : List Text) : Except UsageError Arguments := do
  let r ← Reading.start.readAll ts
  r.check
  .ok r.arguments

end Masthead.CommandLine
