import Masthead.Text

namespace Masthead.CommandLine

inductive Parameter where
  | paths
  | definition
  | remove
  | modify
  | showDiff
  | saveDiff
  | keyword
  | property
  | ignoreNonCommentText
  | maxParallelism
  | config
  | noConfig
  | verbose
  | quiet
  | colors
  | help
  | version
  deriving DecidableEq, Repr

namespace Parameter

def named : List Parameter :=
  [definition, remove, modify, showDiff, saveDiff, keyword, property, ignoreNonCommentText,
    maxParallelism, config, noConfig, verbose, quiet, colors, help, version]

/-- The name behind two hyphens. -/
def name : Parameter → Text
  | paths => []
  | definition => "definition".toList
  | remove => "remove".toList
  | modify => "modify".toList
  | showDiff => "show-diff".toList
  | saveDiff => "save-diff".toList
  | keyword => "keyword".toList
  | property => "property".toList
  | ignoreNonCommentText => "ignore-non-comment-text".toList
  | maxParallelism => "max-parallelism".toList
  | config => "config".toList
  | noConfig => "no-config".toList
  | verbose => "verbose".toList
  | quiet => "quiet".toList
  | colors => "colors".toList
  | help => "help".toList
  | version => "version".toList

def letter? : Parameter → Option Char
  | definition => some 'd'
  | saveDiff => some 'o'
  | keyword => some 'k'
  | property => some 'p'
  | maxParallelism => some 'j'
  | verbose => some 'v'
  | quiet => some 'q'
  | help => some 'h'
  | version => some 'V'
  | _ => none

def ofName? (t : Text) : Option Parameter := named.find? (·.name = t)

def ofLetter? (c : Char) : Option Parameter := named.find? (·.letter? = some c)

def takesValue (p : Parameter) : Bool :=
  p ∈ [paths, definition, saveDiff, keyword, property, maxParallelism, config, colors]

def isRepeatable (p : Parameter) : Bool := p ∈ [paths, keyword, property, verbose]

/-- The value of a parameter that is given without one. -/
def impliedValue? (p : Parameter) : Option Text :=
  if p = colors then some "always".toList else if p.takesValue then none else some []

def conflicts : List (Parameter × Parameter) :=
  [(remove, definition), (showDiff, modify), (saveDiff, modify), (quiet, verbose)]

end Parameter

/-- The form of an argument. -/
inductive Form where
  /-- Two hyphens: what follows are paths. -/
  | separator
  /-- A name behind two hyphens, with what follows an equals sign. -/
  | long (name : Text) (value : Option Text)
  /-- Letters behind one hyphen. -/
  | cluster (letters : Text)
  | plain
  deriving DecidableEq, Repr

/-- What stands before and after the first equals sign. -/
def splitAtEquals (t : Text) : Text × Option Text :=
  match Text.splitAtFirst? "=".toList t with
  | some (before, after) => (before, some after)
  | none => (t, none)

def Form.ofText : Text → Form
  | ['-', '-'] => separator
  | '-' :: '-' :: t => long (splitAtEquals t).1 (splitAtEquals t).2
  | ['-'] => plain
  | '-' :: t => cluster t
  | _ => plain

end Masthead.CommandLine
