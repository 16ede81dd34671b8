import Masthead.Header.Document

/-!
# Failures

Why a file was not edited. A file that needs no editing, such as a definition file, is skipped
rather than failed.
-/
namespace Masthead.Editor

inductive FailureKind where
  | nonCommentText
  | languageNotFound
  | parsing
  | noHeaderFound
  | miscellaneous
  | emptyHeader
  | fileNotFound
  | definitionFile
  deriving DecidableEq, Repr

namespace FailureKind

def text : FailureKind → Text
  | nonCommentText => "non-comment text".toList
  | languageNotFound => "language not found".toList
  | parsing => "parsing error".toList
  | noHeaderFound => "no header found".toList
  | miscellaneous => "error".toList
  | emptyHeader => "empty header".toList
  | fileNotFound => "file not found".toList
  | definitionFile => "header definition file".toList

def isSkip (k : FailureKind) : Bool := k == definitionFile || k == emptyHeader

end FailureKind

structure Failure where
  path : Path
  /-- The text that was to be edited, if it was given. -/
  content : Option Text
  kind : FailureKind
  message : Text
  deriving DecidableEq, Repr

inductive CreationCause where
  | fileNotFound
  | definitionFile
  | languageNotFound (extension : Text)
  | invalidLanguage (cause : LanguageError)
  | noHeaderFound (extension : Text)
  | emptyHeader (extension : Text)
  deriving DecidableEq, Repr

structure CreationError where
  path : Path
  cause : CreationCause
  deriving DecidableEq, Repr

namespace CreationError

def kind (e : CreationError) : FailureKind :=
  match e.cause with
  | .fileNotFound => .fileNotFound
  | .definitionFile => .definitionFile
  | .languageNotFound _ => .languageNotFound
  | .invalidLanguage _ => .miscellaneous
  | .noHeaderFound _ => .noHeaderFound
  | .emptyHeader _ => .emptyHeader

def message (e : CreationError) : Text :=
  let inParentheses := " (".toList ++ e.path.shown ++ ")".toList
  match e.cause with
  | .fileNotFound => "File not found: ".toList ++ e.path.shown
  | .definitionFile => e.path.shown ++ " is a header definition file and is not modified".toList
  | .languageNotFound extension =>
    "No language is configured for extension ".toList ++ extension ++ inParentheses
  | .invalidLanguage cause =>
    "Invalid language definition for ".toList ++ e.path.shown ++ ": ".toList ++ cause.message
  | .noHeaderFound extension =>
    "No header is defined for extension ".toList ++ extension ++ inParentheses
  | .emptyHeader extension =>
    "The header for extension ".toList ++ extension ++ " is empty".toList ++ inParentheses

def failure (e : CreationError) (content : Option Text) : Failure :=
  ⟨e.path, content, e.kind, e.message⟩

end CreationError

namespace Failure

def ofDocumentError (path : Path) (content : Option Text) (e : Header.DocumentError) : Failure :=
  match e with
  | .comment cause => ⟨path, content, .parsing,
      "Failed to parse the existing header of ".toList ++ path.shown ++ ": ".toList ++ cause.message⟩
  | e => ⟨path, content, .miscellaneous, e.message⟩

/-- The desired header is not a comment of the file's language. -/
def nonCommentText (path : Path) (content : Option Text) : Failure :=
  ⟨path, content, .nonCommentText,
    "The header for ".toList ++ path.shown ++
      " contains text that is not a comment in this language".toList⟩

end Failure
end Masthead.Editor
