import Masthead.Comment.Leading
import Masthead.Pattern.Parser

/-!
# Languages

A language is found by the end of a file name, and it fixes how comments are written and which text
stays above any header.
-/
namespace Masthead

structure Language where
  extensions : List Text
  lineComment : Option Text
  blockStart : Option Text
  blockEnd : Option Text
  regionStart : Option Text
  regionEnd : Option Text
  /-- A pattern for text that stays at the very start of a file. -/
  skip : Option Text
  deriving DecidableEq, Repr, Inhabited

inductive LanguageError where
  | noExtensions
  | incompleteRegion (extensions : Text)
  | incompleteBlockComment (extensions : Text)
  | noCommentSyntax (extensions : Text)
  | invalidSkip (extensions : Text) (cause : PatternError)
  deriving DecidableEq, Repr

namespace LanguageError

def message : LanguageError → Text
  | noExtensions => "Language defines no extensions".toList
  | incompleteRegion extensions =>
    "Language ".toList ++ extensions ++
      " defines only one of region-start and region-end".toList
  | incompleteBlockComment extensions =>
    "Language ".toList ++ extensions ++
      " defines only one of block-comment-start and block-comment-end".toList
  | noCommentSyntax extensions =>
    "Language ".toList ++ extensions ++
      " defines neither a line comment nor a block comment".toList
  | invalidSkip extensions cause =>
    "Invalid skip expression for language ".toList ++ extensions ++ ": ".toList ++ cause.message

end LanguageError

/-- An extension in lower case with a leading dot; a blank one becomes empty. -/
def normalizeExtension (extension : Text) : Text :=
  match Text.lower extension.trim with
  | [] => []
  | '.' :: name => '.' :: name
  | name => '.' :: name

namespace Language

/-- A language without any comment syntax. -/
def ofExtensions (extensions : List Text) : Language :=
  { extensions := extensions.map normalizeExtension
    lineComment := none, blockStart := none, blockEnd := none
    regionStart := none, regionEnd := none, skip := none }

def withLineComment (l : Language) (token : Text) : Language := { l with lineComment := some token }

def withBlockComment (l : Language) (opener closer : Text) : Language :=
  { l with blockStart := some opener, blockEnd := some closer }

def withRegion (l : Language) (opener closer : Text) : Language :=
  { l with regionStart := some opener, regionEnd := some closer }

def withSkip (l : Language) (expression : Text) : Language := { l with skip := some expression }

def normalized (l : Language) : Language :=
  { l with extensions := l.extensions.map normalizeExtension }

def grammar (l : Language) : Comment.Grammar :=
  .ofTexts l.lineComment l.blockStart l.blockEnd l.regionStart l.regionEnd

def extensionsText (l : Language) : Text := Text.join [' '] l.extensions

/-- The pattern of the skip expression; an empty expression is none. -/
def skipPattern? (l : Language) : Except LanguageError (Option Pattern) :=
  match l.skip with
  | none => .ok none
  | some [] => .ok none
  | some expression =>
    match Pattern.parse expression with
    | .ok p => .ok (some p)
    | .error e => .error (.invalidSkip l.extensionsText e)

/-- The first thing that is wrong with a definition. -/
def validate (l : Language) : Except LanguageError Unit :=
  if l.extensions.all Text.isAllBlank then .error .noExtensions
  else if l.regionStart.isSome != l.regionEnd.isSome then
    .error (.incompleteRegion l.extensionsText)
  else if l.blockStart.isSome != l.blockEnd.isSome then
    .error (.incompleteBlockComment l.extensionsText)
  else if l.lineComment.isNone && l.blockStart.isNone then
    .error (.noCommentSyntax l.extensionsText)
  else l.skipPattern?.map fun _ => ()

/-- One of the extensions ends the file name, whatever the case. -/
def covers (l : Language) (fileName : Text) : Bool :=
  l.extensions.any fun extension =>
    extension != [] && Text.endsWithIgnoringCase fileName extension

def find? (languages : List Language) (fileName : Text) : Option Language :=
  languages.find? (·.covers fileName)

end Language
end Masthead
