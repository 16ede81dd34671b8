import Masthead.Editor.Failure
import Masthead.Header.Definitions
import Masthead.Header.Properties
import Masthead.Language.BuiltIn

/-!
# The editor

The editor finds the language and the header for a file and applies the header's rule. The text of a
job is either given, and the edited text is returned, or the file itself is edited.
-/
namespace Masthead

structure Editor where
  languages : List Language
  keywords : List Text
  /-- How many files of a batch are edited at once. -/
  parallelism : Nat
  deriving DecidableEq, Repr

namespace Editor

structure Job where
  path : Path
  source : Header.Source
  /-- The headers to choose from; none if headers are to be removed. -/
  headers : Option Header.Definitions
  properties : List Header.Property
  /-- Headers need not be comments. -/
  ignoreNonCommentText : Bool
  deriving DecidableEq, Repr

def Job.content? (job : Job) : Option Text :=
  match job.source with
  | .held content => some content
  | .onDisk => none

/-- The job's text has to be read from a file that is not there. -/
def Job.isMissing (job : Job) : Task Bool := do
  match job.source with
  | .held _ => return false
  | .onDisk => return !(← Task.isFile job.path)

/-- A file that was edited, with its text afterwards. -/
structure Edit where
  path : Path
  content : Text
  action : Header.Action
  deriving DecidableEq, Repr

def defaultParallelism : Nat := 15

/-- An editor for languages, which are tried in order. -/
def ofLanguages (languages : List Language) (keywords : List Text) : Editor where
  languages := languages.map Language.normalized
  keywords := keywords
  parallelism := defaultParallelism

/-- At least one file is edited at a time. -/
def withParallelism (e : Editor) (n : Nat) : Editor := { e with parallelism := max n 1 }

variable (e : Editor)

/-- The first language that covers a file name or a bare extension. -/
def languageFor? (fileName : Text) : Option Language :=
  if fileName = [] then none else Language.find? e.languages fileName

/-- The extension that messages name: what starts with the first dot, or else the whole name. -/
def shownExtension (fileName : Text) : Text :=
  match fileName.dropWhile (· != '.') with
  | [] => fileName
  | extension => extension

/-- The header that a job's definitions give a file, with its tokens still in place. -/
def headerFor (job : Job) (fileName : Text) : Except CreationCause (Option (List Text)) :=
  match job.headers with
  | none => .ok none
  | some definitions =>
    match definitions.lookup? fileName with
    | none => .error (.noHeaderFound (shownExtension fileName))
    | some (key, lines) =>
      if lines.all Text.isAllBlank then .error (.emptyHeader key) else .ok (some lines)

/-- The language and the unexpanded header of a job whose file exists. -/
def resolve (job : Job) : Except CreationCause (Language × Option (List Text)) := do
  let fileName := job.path.fileName
  if Header.isDefinitionFile job.path then .error .definitionFile
  else match e.languageFor? fileName with
    | none => .error (.languageNotFound (shownExtension fileName))
    | some language => do
      language.validate.mapError .invalidLanguage
      let header ← headerFor job fileName
      .ok (language, header)

/-- The document of a job, with the tokens of its header replaced. -/
def document (s : Header.Surroundings) (job : Job) :
    Task (Except CreationError Header.Document) := do
  if ← job.isMissing then return .error ⟨job.path, .fileNotFound⟩
  else match e.resolve job with
    | .error cause => return .error ⟨job.path, cause⟩
    | .ok (language, header) =>
      let header ← match header with
        | none => pure none
        | some lines => some <$> Header.Property.expand s job.path job.properties lines
      match Header.Rule.ofLanguage language header e.keywords with
      | .error cause => return .error ⟨job.path, .invalidLanguage cause⟩
      | .ok rule => return .ok ⟨job.path, job.source, rule⟩

/-- Applies the rule of a job's document. A file is only written if its text changes. -/
def apply (job : Job) (d : Header.Document) : Task (Except Failure Edit) := do
  if !job.ignoreNonCommentText && !d.rule.isValid then
    return .error (.nonCommentText job.path job.content?)
  else
    let new ← match job.source with
      | .held _ => pure d.reviseContent
      | .onDisk => d.reviseFile
    match new with
    | .error e => return .error (.ofDocumentError job.path job.content? e)
    | .ok new => return .ok ⟨job.path, new.content, new.action⟩

/-- Edits one file or one given text. -/
def edit (s : Header.Surroundings) (job : Job) : Task (Except Failure Edit) := do
  match ← e.document s job with
  | .error cause => return .error (cause.failure job.content?)
  | .ok d => apply job d

def accepts (s : Header.Surroundings) (job : Job) : Task Bool := do
  if (← Task.kind job.path).isNone then return false
  else return (← e.document s job).toBool

end Editor
end Masthead
