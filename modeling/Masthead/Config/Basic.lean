import Masthead.Language.BuiltIn
import Masthead.Toml.Document
import Masthead.Path
import Masthead.FileSystem

/-!
# Configurations

A configuration adds languages to the built-in ones, and it sets the keywords and the number of
files that are edited at once. What has been read is validated before it is normalized.
-/
namespace Masthead

structure Config where
  maxParallelism : Option Nat
  keywords : List Text
  languages : List Language
  deriving DecidableEq, Repr

inductive ConfigError where
  | read (path : Path) (cause : IoError)
  | parse (path : Path) (cause : Toml.TomlError)
  | invalidLanguage (index : Nat) (cause : LanguageError)
  | invalidParallelism
  deriving DecidableEq, Repr

namespace ConfigError

def message : ConfigError → Text
  | read path cause =>
    "Failed to read config file '".toList ++ path.shown ++ "': ".toList ++ cause.message
  | parse path cause =>
    "Failed to parse config file '".toList ++ path.shown ++ "': ".toList ++ cause.message
  | invalidLanguage index cause =>
    "Invalid language #".toList ++ Text.ofNat index ++ " in config: ".toList ++ cause.message
  | invalidParallelism => "max-parallelism must be at least 1".toList

def cause? : ConfigError → Option Text
  | read _ cause => some cause.message
  | parse _ cause => some cause.message
  | invalidLanguage _ cause => some cause.message
  | invalidParallelism => none

end ConfigError

namespace Config

def empty : Config := ⟨none, [], []⟩

/-! ## Reading -/

open Toml

def asText : Value → Except TomlError Text
  | .string t => .ok t
  | _ => .error (.wrongType "a string".toList)

def asTexts : Value → Except TomlError (List Text)
  | .array items => items.mapM asText
  | _ => .error (.wrongType "an array of strings".toList)

def maxCount : Int := 18446744073709551615

def asCount : Value → Except TomlError Nat
  | .integer n =>
    if 0 ≤ n ∧ n ≤ maxCount then .ok n.toNat else .error (.wrongType "a count".toList)
  | _ => .error (.wrongType "a count".toList)

/-- The values of a language's fields, in the order in which an array gives them. -/
def languageFields : List Text :=
  ["extensions".toList, "line-comment".toList, "block-comment-start".toList,
    "block-comment-end".toList, "region-start".toList, "region-end".toList,
    "skip-expression".toList]

def languageOfTable (t : Table) : Except TomlError Language := do
  let optional (key : String) : Except TomlError (Option Text) := (t.get? key.toList).mapM asText
  match t.get? "extensions".toList with
  | none => .error (.missingField "extensions".toList)
  | some extensions =>
    .ok { extensions := ← asTexts extensions
          lineComment := ← optional "line-comment"
          blockStart := ← optional "block-comment-start"
          blockEnd := ← optional "block-comment-end"
          regionStart := ← optional "region-start"
          regionEnd := ← optional "region-end"
          skip := ← optional "skip-expression" }

def asLanguage : Value → Except TomlError Language
  | .table _ entries => languageOfTable entries
  | .array items => languageOfTable (languageFields.zip items)
  | _ => .error (.wrongType "a language".toList)

def asLanguages : Value → Except TomlError (List Language)
  | .array items => items.mapM asLanguage
  | .tables items => items.mapM languageOfTable
  | _ => .error (.wrongType "an array of languages".toList)

/-- The configuration that a table denotes. Other keys have no meaning. -/
def ofTable (t : Table) : Except TomlError Config := do
  .ok { maxParallelism := ← (t.get? "max-parallelism".toList).mapM asCount
        keywords := ← ((t.get? "keywords".toList).map asTexts).getD (.ok [])
        languages := ← ((t.get? "languages".toList).map asLanguages).getD (.ok []) }

/-! ## Validation -/

/-- The first invalid language, counted from `index` on. -/
def validateLanguages (index : Nat) : List Language → Except ConfigError Unit
  | [] => .ok ()
  | l :: ls =>
    match l.validate with
    | .error cause => .error (.invalidLanguage index cause)
    | .ok _ => validateLanguages (index + 1) ls

def validate (c : Config) : Except ConfigError Unit := do
  validateLanguages 0 c.languages
  if c.maxParallelism = some 0 then .error .invalidParallelism else .ok ()

/-- Keywords lose surrounding blanks, and blank ones are dropped. -/
def normalize (c : Config) : Config :=
  { c with
    keywords := (c.keywords.map Text.trim).filter (· ≠ [])
    languages := c.languages.map Language.normalized }

/-- Reads the text of the configuration file at `path`. -/
def parse (path : Path) (t : Text) : Except ConfigError Config := do
  match (Toml.parse t).bind ofTable with
  | .error cause => .error (.parse path cause)
  | .ok c =>
    c.validate
    .ok c.normalize

/-- The configured languages come before the built-in ones. -/
def languagesWithBuiltIn (c : Config) : List Language := c.languages ++ Language.builtIn

end Config
end Masthead
