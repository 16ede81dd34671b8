import Masthead.CommandLine.Arguments

namespace Masthead.CommandLine

def programName : Text := "masthead".toList

namespace Parameter

def valueName : Parameter → Text
  | paths => "<PATHS>...".toList
  | keyword => "<KEYWORD>".toList
  | property => "<NAME=VALUE>".toList
  | maxParallelism => "<N>".toList
  | colors => "[<WHEN>]".toList
  | p => if p.takesValue then "<FILE>".toList else []

def description : Parameter → Text
  | paths => "Files, or directories with the files below them".toList
  | definition => "Header definition file (.licenseheader)".toList
  | remove => "Remove headers instead of inserting or replacing them".toList
  | modify => "Write changes to the files".toList
  | showDiff => "Show the diff of changes in a dry run".toList
  | saveDiff => "Save the diff of changes in a dry run".toList
  | keyword => "Only touch headers that contain a keyword (repeatable)".toList
  | property => "Replace %NAME% in headers (repeatable)".toList
  | ignoreNonCommentText => "Insert headers even if they are not comments".toList
  | maxParallelism => "How many files are edited at once".toList
  | config => "Configuration file".toList
  | noConfig => "Use no configuration file".toList
  | verbose => "Say more".toList
  | quiet => "Say nothing but failures and changed paths".toList
  | colors => "When to use colors (auto, never, always)".toList
  | help => "Show this text".toList
  | version => "Show the name of the program".toList

def helpLine (p : Parameter) : Text :=
  let letter := match p.letter? with
    | some c => ['-', c, ',', ' ']
    | none => "    ".toList
  let name := "--".toList ++ p.name ++ (if p.takesValue then ' ' :: p.valueName else [])
  "  ".toList ++ letter ++ name ++ "\n          ".toList ++ p.description ++ "\n".toList

end Parameter

def helpText : Text :=
  "Usage: ".toList ++ programName ++ " [OPTIONS] ".toList ++ Parameter.paths.valueName ++
    "\n\n".toList ++ Parameter.named.flatMap Parameter.helpLine

namespace UsageError

def message : UsageError → Text
  | missingRequired => "required arguments are missing".toList
  | conflict => "arguments cannot be used together".toList
  | unknown => "unexpected argument".toList
  | invalidValue => "a value is missing or not possible".toList
  | badNumber => "a value is not a positive number".toList
  | unwantedValue => "a value where none is taken".toList
  | helpAsked => helpText
  | versionAsked => programName

def isRequest (e : UsageError) : Bool := e == helpAsked || e == versionAsked

end UsageError
end Masthead.CommandLine
