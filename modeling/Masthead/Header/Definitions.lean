import Masthead.Language.Basic
import Masthead.LineEnding
import Masthead.Task

/-!
# Header definitions

Which header the files of an extension have. In a definition file a line that starts with
`extensions:` opens a section, and the lines up to the next such line are the header for every
extension that it lists.
-/
namespace Masthead.Header

def definitionExtension : Text := ".licenseheader".toList

def sectionKeyword : Text := "extensions:".toList

/-- Headers by normalized extension; no extension is listed twice. -/
structure Definitions where
  entries : List (Text × List Text)
  deriving DecidableEq, Repr

/-- The extensions and the lines of a part of a definition file. -/
structure Section where
  extensions : List Text
  lines : List Text
  deriving DecidableEq, Repr

namespace Definitions

def empty : Definitions := ⟨[]⟩

instance : Inhabited Definitions := ⟨empty⟩

def size (d : Definitions) : Nat := d.entries.length

def putEntry (key : Text) (lines : List Text) : List (Text × List Text) → List (Text × List Text)
  | [] => [(key, lines)]
  | entry :: entries =>
    if entry.1 = key then (key, lines) :: entries else entry :: putEntry key lines entries

/-- Sets the header for an extension; a blank extension is ignored. -/
def insert (d : Definitions) (extension : Text) (lines : List Text) : Definitions :=
  let key := normalizeExtension extension
  if key = [] then d else ⟨putEntry key lines d.entries⟩

/-- Of two entries the one with the longer extension, and of equally long ones the second. -/
def longer (best : Option (Text × List Text)) (entry : Text × List Text) :
    Option (Text × List Text) :=
  match best with
  | some found => if found.1.length ≤ entry.1.length then some entry else some found
  | none => some entry

/-- The entry with the longest extension among those that end the file name. -/
def lookup? (d : Definitions) (fileName : Text) : Option (Text × List Text) :=
  let name := Text.lower fileName
  (d.entries.filter fun (key, _) => key.isSuffixOf name).foldl longer none

/-- The normalized extensions that a line lists if it opens a section. -/
def sectionLine? (line : Text) : Option (List Text) :=
  let trimmed := line.trimStart
  if (trimmed.take sectionKeyword.length).map Char.toLower = sectionKeyword then
    some ((Text.words (trimmed.drop sectionKeyword.length)).map normalizeExtension)
  else none

/-- Adds a line to the last of the sections, if there is one. -/
def addLine (sections : List Section) (line : Text) : List Section :=
  match sections.getLast? with
  | none => []
  | some s => sections.dropLast ++ [{ s with lines := s.lines ++ [line] }]

/-- One more line opens a section or belongs to the last one. -/
def readLine (sections : List Section) (line : Text) : List Section :=
  match sectionLine? line with
  | some extensions => sections ++ [⟨extensions, []⟩]
  | none => addLine sections line

/-- The lines between line feeds. No line follows a line feed at the end. -/
def feedLines (t : Text) : List Text :=
  let pieces := Text.splitAll (· == '\n') t
  if pieces.getLast? = some [] then pieces.dropLast else pieces

/-- The sections of a definition file. A line break at its end gives the last one an empty line. -/
def readSections (t : Text) : List Section :=
  let t := LineEnding.replaceAll ['\n'] t
  let sections := (feedLines t).foldl readLine []
  if t.getLast? = some '\n' then addLine sections [] else sections

/-- Reads a definition file. Of two sections for one extension the later one counts. -/
def parse (t : Text) : Definitions :=
  (readSections t).foldl (fun d s =>
    s.extensions.foldl (fun d extension => d.insert extension s.lines) d) empty

structure LoadError where
  path : Path
  cause : IoError
  deriving DecidableEq, Repr

def LoadError.message (e : LoadError) : Text :=
  "Failed to read header definition file: ".toList ++ e.path.shown

def load (path : Path) : Task (Except LoadError Definitions) := do
  match ← Task.read path with
  | .ok t => return .ok (parse t)
  | .error e => return .error ⟨path, e⟩

end Definitions

/-- The path names a definition file, whatever the case of its extension. A name that is no text is
none of a definition file. -/
def isDefinitionFile (p : Path) : Bool :=
  (p.fileName?.bind Text.decode?).any fun name => definitionExtension.isSuffixOf (Text.lower name)

end Masthead.Header
