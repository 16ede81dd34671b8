import Masthead.CommandLine.Arguments
import Masthead.Config.Discovery
import Masthead.Editor.Basic

/-!
# Plans

What a run is going to do to its files: the editor and what all jobs share. A plan is made from the
arguments, the configuration and the definition file, in this order, so an error in the
configuration is reported first.
-/
namespace Masthead.CommandLine

structure Environment where
  workingDirectory : Path
  /-- The path of a configuration file, as the environment variable gives it. -/
  configPath : Option Path
  surroundings : Header.Surroundings
  deriving DecidableEq, Repr

inductive RunError where
  | config (path : Path) (cause : ConfigError)
  | missingDefinition
  | definition (cause : Header.Definitions.LoadError)
  | noExtensions (path : Path)
  | noPropertyValue (argument : Text)
  | noPropertyName (argument : Text)
  | openDiffFile (path : Path) (cause : IoError)
  | writeDiffFile (path : Path) (cause : IoError)
  deriving DecidableEq, Repr

namespace RunError

def message : RunError → Text
  | config path _ => "Failed to load config from ".toList ++ path.shown
  | missingDefinition => "Missing required argument: --definition <FILE>".toList
  | definition cause => cause.message
  | noExtensions path =>
    "Header definition file ".toList ++ path.shown ++
      " defines no extensions (expected lines like `extensions: .rs .cs`)".toList
  | noPropertyValue argument =>
    "Invalid property '".toList ++ argument ++ "', expected NAME=VALUE".toList
  | noPropertyName argument =>
    "Invalid property '".toList ++ argument ++ "', the name is empty".toList
  | openDiffFile path _ => "Failed to open diff file: ".toList ++ path.shown
  | writeDiffFile path _ => "Failed to write diff file: ".toList ++ path.shown

/-- What the error was caused by, the nearest cause first. -/
def causes : RunError → List Text
  | config _ cause => cause.message :: cause.cause?.toList
  | definition cause => [cause.cause.message]
  | openDiffFile _ cause => [cause.message]
  | writeDiffFile _ cause => [cause.message]
  | _ => []

end RunError

inductive Note where
  | configNotWanted
  | configIgnored (path : Path)
  | configNotFound
  | configUsed (path : Path) (source : Config.Source)
  | languages (count : Nat)
  | headers (count : Nat)
  deriving DecidableEq, Repr

def Note.text : Note → Text
  | configNotWanted => "Not looking for a config file (--no-config)".toList
  | configIgnored path =>
    "Ignoring ".toList ++ Config.environmentVariable ++ ", ".toList ++ path.shown ++
      " is not a file".toList
  | configNotFound => "No config file found".toList
  | configUsed path source =>
    "Using config ".toList ++ path.shown ++ " (".toList ++ source.name ++ ")".toList
  | languages count => "Loaded ".toList ++ Text.ofNat count ++ " language definition(s)".toList
  | headers count => "Loaded headers for ".toList ++ Text.ofNat count ++ " extension(s)".toList

structure Plan where
  editor : Editor
  /-- The headers to choose from; none if headers are to be removed. -/
  headers : Option Header.Definitions
  properties : List Header.Property
  ignoreNonCommentText : Bool
  deriving DecidableEq, Repr

namespace Plan

def job (p : Plan) (path : Path) (source : Header.Source) : Editor.Job :=
  ⟨path, source, p.headers, p.properties, p.ignoreNonCommentText⟩

/-- The configuration of a run; the empty one if there is no file. -/
def configure (a : Arguments) (env : Environment) :
    Task (List Note × Except RunError Config) := do
  if a.noConfig then return ([.configNotWanted], .ok .empty)
  else
    let d ← Config.discover a.config env.configPath env.workingDirectory
    let ignored := d.ignored.toList.map Note.configIgnored
    match d.found with
    | none => return (ignored ++ [.configNotFound], .ok .empty)
    | some (path, source) =>
      let notes := ignored ++ [.configUsed path source]
      match ← Config.load path with
      | .error cause => return (notes, .error (.config path cause))
      | .ok c => return (notes ++ [.languages c.languages.length], .ok c)

/-- The headers of a run. Definitions without extensions are refused. -/
def loadHeaders (a : Arguments) : Task (Except RunError (Option Header.Definitions)) := do
  if a.remove then return .ok none
  else match a.definition with
    | none => return .error .missingDefinition
    | some path =>
      match ← Header.Definitions.load path with
      | .error cause => return .error (.definition cause)
      | .ok d => return if d.size = 0 then .error (.noExtensions path) else .ok (some d)

/-- A name without the blanks and then the percent signs around it. -/
def bareName (t : Text) : Text := Text.dropEndWhile (· == '%') (t.trim.dropWhile (· == '%'))

/-- The property that an argument such as `Owner=Me` gives. -/
def property (argument : Text) : Except RunError Header.Property :=
  match splitAtEquals argument with
  | (_, none) => .error (.noPropertyValue argument)
  | (before, some value) =>
    if bareName before = [] then .error (.noPropertyName argument)
    else .ok ⟨'%' :: bareName before ++ ['%'], value⟩

/-- Keywords and parallelism in the arguments win over those in the configuration. -/
def editorOf (a : Arguments) (c : Config) : Editor :=
  let keywords := if a.keywords = [] then c.keywords else a.keywords
  let parallelism := (a.maxParallelism.or c.maxParallelism).getD Editor.defaultParallelism
  (Editor.ofLanguages c.languagesWithBuiltIn keywords).withParallelism parallelism

def make (a : Arguments) (env : Environment) : Task (List Note × Except RunError Plan) := do
  match ← configure a env with
  | (notes, .error cause) => return (notes, .error cause)
  | (notes, .ok c) =>
    match ← loadHeaders a with
    | .error cause => return (notes, .error cause)
    | .ok headers =>
      let notes := notes ++ headers.toList.map fun d => .headers d.size
      match a.properties.mapM property with
      | .error cause => return (notes, .error cause)
      | .ok properties =>
        return (notes, .ok ⟨editorOf a c, headers, properties, a.ignoreNonCommentText⟩)

end Plan
end Masthead.CommandLine
