import Masthead.Pattern.Basic

/-!
# The syntax of patterns

`Pattern.parse` reads the text of a pattern. The reader goes through the text once and keeps the
groups that are open; an operator takes the item before it. Look-around and references to groups are
no patterns.
-/
namespace Masthead

inductive PatternError where
  | unclosedGroup
  | unopenedGroup
  | unclosedClass
  | badClassRange
  | badClassItem
  | repetitionMissing
  | badRepetition
  | badFlags
  | badGroupName
  | lookAround
  | badEscape
  | unknownProperty
  | notText
  deriving DecidableEq, Repr

namespace PatternError

def cause : PatternError → Text
  | unclosedGroup => "unclosed group".toList
  | unopenedGroup => "unopened group".toList
  | unclosedClass => "unclosed character class".toList
  | badClassRange => "invalid character class range".toList
  | badClassItem => "invalid item in a character class".toList
  | repetitionMissing => "repetition operator missing expression".toList
  | badRepetition => "invalid repetition count".toList
  | badFlags => "invalid flags".toList
  | badGroupName => "invalid group name".toList
  | lookAround => "look-around is not supported".toList
  | badEscape => "unrecognized escape sequence".toList
  | unknownProperty => "character property not found".toList
  | notText => "pattern can match invalid UTF-8".toList

def message (e : PatternError) : Text := "regex parse error: ".toList ++ e.cause

end PatternError

namespace Pattern

structure Flags where
  ignoreCase : Bool
  multiLine : Bool
  dotAll : Bool
  swapGreed : Bool
  unicode : Bool
  crlf : Bool
  ignoreBlanks : Bool
  deriving DecidableEq, Repr

namespace Flags

def initial : Flags := ⟨false, false, false, false, true, false, false⟩

def set? (flags : Flags) (name : Char) (value : Bool) : Option Flags :=
  match name with
  | 'i' => some { flags with ignoreCase := value }
  | 'm' => some { flags with multiLine := value }
  | 's' => some { flags with dotAll := value }
  | 'U' => some { flags with swapGreed := value }
  | 'u' => some { flags with unicode := value }
  | 'R' => some { flags with crlf := value }
  | 'x' => some { flags with ignoreBlanks := value }
  | _ => none

def close (flags : Flags) (s : CharSet) : CharSet := if flags.ignoreCase then s.fold else s

/-- A complement could match parts of a character unless patterns are Unicode patterns. -/
def complement (flags : Flags) (s : CharSet) : Except PatternError CharSet :=
  if flags.unicode then .ok s.complement else .error .notText

def dot (flags : Flags) : Except PatternError CharSet :=
  let excluded :=
    if flags.dotAll then CharSet.empty
    else if flags.crlf then CharSet.ofChars ['\r', '\n']
    else CharSet.single '\n'
  flags.complement excluded

def digit (flags : Flags) : CharSet := if flags.unicode then .digit else .range '0' '9'

def blank (flags : Flags) : CharSet :=
  if flags.unicode then .blank else .ofRanges [('\t', '\r'), (' ', ' ')]

def word (flags : Flags) : CharSet :=
  if flags.unicode then .word else .ofRanges [('0', '9'), ('A', 'Z'), ('_', '_'), ('a', 'z')]

end Flags

inductive Escape where
  | literal (c : Char)
  | set (s : CharSet)
  | anchor (a : Anchor)

def isMeta (c : Char) : Bool := "\\.+*?()|[]\x7b\x7d^$#&-~".toList.contains c

/-- Characters that stand for themselves behind a backslash. -/
def isEscapable (c : Char) : Bool :=
  isMeta c || (c.toNat < 0x80 && !c.isAlphanum && c != '<' && c != '>')

def hexValue? (digits : Text) : Option Nat :=
  digits.foldl (fun value c => do
    let n ← value
    if c.isDigit then some (16 * n + (c.toNat - '0'.toNat))
    else if 'a' ≤ c.toLower && c.toLower ≤ 'f' then
      some (16 * n + (c.toLower.toNat - 'a'.toNat + 10))
    else none) (some 0)

def scalar? (n : Nat) : Option Char := if n.isValidChar then some (Char.ofNat n) else none

/-- The number of a character, in braces or with a fixed number of digits. -/
def parseHex (width : Nat) (t : Text) : Except PatternError (Char × Text) :=
  let (digits, rest) :=
    match t with
    | '\x7b' :: t =>
      let digits := t.takeWhile (· != '\x7d')
      (if digits.length < t.length then digits else [], (t.drop digits.length).drop 1)
    | t => (if width ≤ t.length then t.take width else [], t.drop width)
  if digits = [] then .error .badEscape
  else match (hexValue? digits).bind scalar? with
    | some c => .ok (c, rest)
    | none => .error .badEscape

def property? (name : Text) : Option CharSet :=
  let plain := (Text.lower name).filter fun c => c != ' ' && c != '_' && c != '-'
  if plain = "any".toList then some .full
  else if plain = "ascii".toList then some (.range '\x00' '\x7f')
  else if plain = "nd".toList || plain = "decimalnumber".toList then some .digit
  else if plain = "whitespace".toList then some .blank
  else none

def parseProperty (negated : Bool) (t : Text) : Except PatternError (CharSet × Text) :=
  let (name, rest) :=
    match t with
    | '\x7b' :: t => (t.takeWhile (· != '\x7d'), (t.dropWhile (· != '\x7d')).drop 1)
    | t => (t.take 1, t.drop 1)
  let (negated, name) :=
    match name with
    | '^' :: name => (!negated, name)
    | name => (negated, name)
  match property? name with
  | some s => .ok (if negated then s.complement else s, rest)
  | none => .error .unknownProperty

def classEscape (flags : Flags) (c : Char) : Option (Except PatternError CharSet) :=
  match c with
  | 'd' => some (.ok flags.digit)
  | 's' => some (.ok flags.blank)
  | 'w' => some (.ok flags.word)
  | 'D' => some (flags.complement flags.digit)
  | 'S' => some (flags.complement flags.blank)
  | 'W' => some (flags.complement flags.word)
  | _ => none

/-- The character that a letter stands for behind a backslash. -/
def controlEscape? : Char → Option Char
  | 'a' => some '\x07'
  | 'f' => some '\x0c'
  | 't' => some '\t'
  | 'n' => some '\n'
  | 'r' => some '\r'
  | 'v' => some '\x0b'
  | _ => none

def anchorEscape? : Char → Option Anchor
  | 'A' => some .textStart
  | 'z' => some .textEnd
  | 'b' => some .wordBoundary
  | 'B' => some .noWordBoundary
  | '<' => some .wordStart
  | '>' => some .wordEnd
  | _ => none

/-- A word boundary whose kind is named in braces. Braces without a name are a repetition. -/
def parseBoundary (t : Text) : Except PatternError (Anchor × Text) :=
  match t with
  | '\x7b' :: inner =>
    if inner.head?.any fun c => c.isAlpha || c == '-' then
      let name := inner.takeWhile fun c => c.isAlpha || c == '-'
      let named : Option Anchor :=
        if name = "start".toList then some .wordStart
        else if name = "end".toList then some .wordEnd
        else if name = "start-half".toList then some .wordStartHalf
        else if name = "end-half".toList then some .wordEndHalf
        else none
      match named, inner.drop name.length with
      | some a, '\x7d' :: rest => .ok (a, rest)
      | _, _ => .error .badEscape
    else .ok (.wordBoundary, t)
  | t => .ok (.wordBoundary, t)

def parseEscape (flags : Flags) : Text → Except PatternError (Escape × Text)
  | [] => .error .badEscape
  | 'x' :: t => do let (c, rest) ← parseHex 2 t; .ok (.literal c, rest)
  | 'u' :: t => do let (c, rest) ← parseHex 4 t; .ok (.literal c, rest)
  | 'U' :: t => do let (c, rest) ← parseHex 8 t; .ok (.literal c, rest)
  | 'p' :: t => do let (s, rest) ← parseProperty false t; .ok (.set s, rest)
  | 'P' :: t => do let (s, rest) ← parseProperty true t; .ok (.set s, rest)
  | 'b' :: t => do let (a, rest) ← parseBoundary t; .ok (.anchor a, rest)
  | c :: t =>
    match classEscape flags c with
    | some s => s.map fun s => (.set s, t)
    | none =>
      if isEscapable c then .ok (.literal c, t)
      else match controlEscape? c, anchorEscape? c with
        | some d, _ => .ok (.literal d, t)
        | none, some a => .ok (.anchor a, t)
        | none, none => .error .badEscape

/-- Drops what a mode that ignores blanks does not read: blanks and comments. -/
def skipIgnored (flags : Flags) : Text → Text
  | [] => []
  | c :: t =>
    if !flags.ignoreBlanks then c :: t
    else if isBlank c then skipIgnored flags t
    else if c == '#' then skipComment t
    else c :: t
where
  skipComment : Text → Text
    | [] => []
    | c :: t => if c == '\n' then skipIgnored flags t else skipComment t

/-! ## Character classes -/

inductive SetOperator where
  | inter
  | diff
  | symmDiff

def SetOperator.apply : SetOperator → CharSet → CharSet → CharSet
  | inter => CharSet.inter
  | diff => CharSet.diff
  | symmDiff => CharSet.symmDiff

/-- A class that is being read: the operand and operator before the members that follow. -/
structure OpenClass where
  negated : Bool
  pending : Option (CharSet × SetOperator)
  members : CharSet

namespace OpenClass

def add (cls : OpenClass) (s : CharSet) : OpenClass :=
  { cls with members := .union cls.members s }

/-- The set up to here. Operators take their operands from left to right. -/
def value (flags : Flags) (cls : OpenClass) : CharSet :=
  match cls.pending with
  | some (left, op) => op.apply (flags.close left) (flags.close cls.members)
  | none => cls.members

def operator (flags : Flags) (cls : OpenClass) (op : SetOperator) : OpenClass :=
  { cls with pending := some (cls.value flags, op), members := .empty }

def finish (flags : Flags) (cls : OpenClass) : Except PatternError CharSet :=
  let s := flags.close (cls.value flags)
  if cls.negated then flags.complement s else .ok s

end OpenClass

def asciiClass? (name : Text) : Option CharSet :=
  let table : List (String × List (Char × Char)) := [
    ("alnum", [('0', '9'), ('A', 'Z'), ('a', 'z')]),
    ("alpha", [('A', 'Z'), ('a', 'z')]),
    ("ascii", [('\x00', '\x7f')]),
    ("blank", [('\t', '\t'), (' ', ' ')]),
    ("cntrl", [('\x00', '\x1f'), ('\x7f', '\x7f')]),
    ("digit", [('0', '9')]),
    ("graph", [('!', '~')]),
    ("lower", [('a', 'z')]),
    ("print", [(' ', '~')]),
    ("punct", [('!', '/'), (':', '@'), ('[', '\x60'), ('\x7b', '~')]),
    ("space", [('\t', '\r'), (' ', ' ')]),
    ("upper", [('A', 'Z')]),
    ("word", [('0', '9'), ('A', 'Z'), ('_', '_'), ('a', 'z')]),
    ("xdigit", [('0', '9'), ('A', 'F'), ('a', 'f')])]
  (table.find? fun (n, _) => n.toList == name).map fun (_, ranges) => .ofRanges ranges

/-- A named class such as `[:alpha:]`, read behind its opening bracket. -/
def namedClass? (flags : Flags) : Text → Option (Except PatternError CharSet × Text)
  | ':' :: t =>
    let (negated, t) :=
      match t with
      | '^' :: t => (true, t)
      | t => (false, t)
    match t.dropWhile (· != ':') with
    | ':' :: ']' :: rest =>
      (asciiClass? (t.takeWhile (· != ':'))).map fun s =>
        (if negated then flags.complement s else .ok s, rest)
    | _ => none
  | _ => none

/-- Reads the start of a class behind its opening bracket: its negation, and hyphens or a closing
bracket that are members. -/
def openClass (flags : Flags) (t : Text) : OpenClass × Text :=
  let t := skipIgnored flags t
  let (negated, t) :=
    match t with
    | '^' :: t => (true, skipIgnored flags t)
    | t => (false, t)
  let rest := t.dropWhile fun c => c == '-' || (flags.ignoreBlanks && isBlank c)
  if t.head? = some '-' then (⟨negated, none, .single '-'⟩, rest)
  else match t with
    | ']' :: rest => (⟨negated, none, .single ']'⟩, rest)
    | t => (⟨negated, none, .empty⟩, t)

/-- One member of a class, which may be the first character of a range. -/
def parseClassItem (flags : Flags) : Text → Except PatternError (Escape × Text)
  | [] => .error .unclosedClass
  | '\\' :: t => parseEscape flags t
  | c :: t => .ok (.literal c, t)

def parseClassMember (flags : Flags) (t : Text) : Except PatternError (CharSet × Text) := do
  let (first, t) ← parseClassItem flags t
  let t := skipIgnored flags t
  let isRange :=
    match t with
    | '-' :: t => match skipIgnored flags t with
      | ']' :: _ => false
      | '-' :: _ => false
      | _ => true
    | _ => false
  if t = [] then .error .unclosedClass
  else if isRange then
    let (last, t) ← parseClassItem flags (skipIgnored flags (t.drop 1))
    match first, last with
    | .literal a, .literal b => if a ≤ b then .ok (.range a b, t) else .error .badClassRange
    | _, _ => .error .badClassRange
  else match first with
    | .literal c => .ok (.single c, t)
    | .set s => .ok (s, t)
    | .anchor _ => .error .badClassItem

/-- Reads a class to its closing bracket, with the classes around it in `outer`. -/
def parseClassFrom (flags : Flags) :
    (fuel : Nat) → OpenClass → List OpenClass → Text → Except PatternError (CharSet × Text)
  | 0, _, _, _ => .error .unclosedClass
  | fuel + 1, cls, outer, t =>
    match skipIgnored flags t with
    | [] => .error .unclosedClass
    | '[' :: t =>
      match namedClass? flags t with
      | some (s, rest) => do parseClassFrom flags fuel (cls.add (← s)) outer rest
      | none =>
        let (inner, rest) := openClass flags t
        parseClassFrom flags fuel inner (cls :: outer) rest
    | ']' :: t => do
      let s ← cls.finish flags
      match outer with
      | [] => .ok (s, t)
      | around :: outer => parseClassFrom flags fuel (around.add s) outer t
    | '&' :: '&' :: t => parseClassFrom flags fuel (cls.operator flags .inter) outer t
    | '-' :: '-' :: t => parseClassFrom flags fuel (cls.operator flags .diff) outer t
    | '~' :: '~' :: t => parseClassFrom flags fuel (cls.operator flags .symmDiff) outer t
    | t => do
      let (s, rest) ← parseClassMember flags t
      parseClassFrom flags fuel (cls.add s) outer rest

def parseClass (flags : Flags) (t : Text) : Except PatternError (CharSet × Text) :=
  let (cls, rest) := openClass flags t
  parseClassFrom flags (t.length + 1) cls [] rest

/-! ## Groups and repetitions -/

/-- Flags read up to a colon or a closing parenthesis, which is returned with what follows it. -/
def parseFlags (flags : Flags) (negated : Bool) (seen : List Char) :
    Text → Except PatternError (Flags × Char × Text)
  | [] => .error .badFlags
  | c :: t =>
    if c == ':' || c == ')' then
      if negated && seen.head? == some '-' then .error .badFlags
      else .ok (flags, c, t)
    else if c == '-' then
      if negated then .error .badFlags else parseFlags flags true ('-' :: seen) t
    else if seen.contains c then .error .badFlags
    else match flags.set? c (!negated) with
      | some flags => parseFlags flags negated (c :: seen) t
      | none => .error .badFlags

def isNameStart (c : Char) : Bool := c == '_' || isWordCharacter c && !isDecimalDigit c

def isNameCharacter (c : Char) : Bool :=
  c == '.' || c == '[' || c == ']' || isWordCharacter c

/-- The name of a group, up to the closing angle bracket. -/
def parseGroupName (taken : List Text) (t : Text) : Except PatternError (Text × Text) :=
  let name := t.takeWhile (· != '>')
  match t.dropWhile (· != '>') with
  | '>' :: rest =>
    if name.head?.any isNameStart && name.all isNameCharacter && !taken.contains name then
      .ok (name, rest)
    else .error .badGroupName
  | _ => .error .badGroupName

def parseCount (t : Text) : Option (Except PatternError Nat × Text) :=
  let t := t.dropWhile isBlank
  let digits := t.takeWhile Char.isDigit
  let rest := (t.dropWhile Char.isDigit).dropWhile isBlank
  if digits = [] then none
  else
    let n := digits.foldl (fun n c => 10 * n + (c.toNat - '0'.toNat)) 0
    some (if n < 4294967296 then .ok n else .error .badRepetition, rest)

/-- The bounds of a repetition, read behind the opening brace. -/
def parseBounds (flags : Flags) (t : Text) : Except PatternError (Nat × Option Nat × Text) :=
  match parseCount (skipIgnored flags t) with
  | none => .error .badRepetition
  | some (least, t) => do
    let least ← least
    match t with
    | '\x7d' :: rest => .ok (least, some least, rest)
    | ',' :: t =>
      match skipIgnored flags t with
      | '\x7d' :: rest => .ok (least, none, rest)
      | t =>
        match parseCount t with
        | some (most, '\x7d' :: rest) => do
          let most ← most
          if least ≤ most then .ok (least, some most, rest) else .error .badRepetition
        | _ => .error .badRepetition
    | _ => .error .badRepetition

/-- The alternatives of a group so far, and the items of the last one, both from the end. A group of
flags is an item without a pattern. -/
structure OpenGroup where
  branches : List Pattern
  items : List (Option Pattern)

namespace OpenGroup

def start : OpenGroup := ⟨[], []⟩

def push (g : OpenGroup) (p : Pattern) : OpenGroup := { g with items := some p :: g.items }

def branch (g : OpenGroup) : Pattern :=
  g.items.foldl (fun rest item =>
    match item, rest with
    | none, rest => rest
    | some p, .empty => p
    | some p, rest => .concat p rest) .empty

def nextBranch (g : OpenGroup) : OpenGroup := ⟨g.branch :: g.branches, []⟩

def pattern (g : OpenGroup) : Pattern := g.branches.foldl (fun rest p => .either p rest) g.branch

def repeatLast (g : OpenGroup) (least : Nat) (most : Option Nat) (greedy : Bool) :
    Except PatternError OpenGroup :=
  match g.items with
  | some p :: items => .ok { g with items := some (.times p least most greedy) :: items }
  | _ => .error .repetitionMissing

end OpenGroup

/-- A reader's state: the flags in force, the names given to groups, the group that is being read,
and the groups around it with the flags that return when it ends. -/
structure Reader where
  flags : Flags
  names : List Text
  group : OpenGroup
  outer : List (OpenGroup × Flags)

namespace Reader

def push (r : Reader) (p : Pattern) : Reader := { r with group := r.group.push p }

def pushChar (r : Reader) (c : Char) : Reader := r.push (.chars (r.flags.close (.single c)))

def openGroup (r : Reader) (flags : Flags) : Reader :=
  { r with flags := flags, group := .start, outer := (r.group, r.flags) :: r.outer }

def closeGroup (r : Reader) : Except PatternError Reader :=
  match r.outer with
  | [] => .error .unopenedGroup
  | (around, flags) :: outer =>
    .ok { r with flags := flags, group := around.push r.group.pattern, outer := outer }

/-- Applies a repetition; a question mark behind it swaps its greed. -/
def repetition (r : Reader) (least : Nat) (most : Option Nat) (t : Text) :
    Except PatternError (Reader × Text) := do
  let (marked, rest) :=
    match t with
    | '?' :: rest => (true, rest)
    | t => (false, t)
  let group ← r.group.repeatLast least most (marked == r.flags.swapGreed)
  .ok ({ r with group := group }, rest)

def parenthesis (r : Reader) (t : Text) : Except PatternError (Reader × Text) :=
  match skipIgnored r.flags t with
  | '?' :: '=' :: _ => .error .lookAround
  | '?' :: '!' :: _ => .error .lookAround
  | '?' :: '<' :: '=' :: _ => .error .lookAround
  | '?' :: '<' :: '!' :: _ => .error .lookAround
  | '?' :: 'P' :: '<' :: t => named t
  | '?' :: '<' :: t => named t
  | '?' :: ')' :: _ => .error .repetitionMissing
  | '?' :: t => do
    let (flags, stop, rest) ← parseFlags r.flags false [] t
    if stop == ':' then .ok (r.openGroup flags, rest)
    else .ok ({ r with flags := flags, group := { r.group with items := none :: r.group.items } },
      rest)
  | t => .ok (r.openGroup r.flags, t)
where
  named (t : Text) : Except PatternError (Reader × Text) := do
    let (name, rest) ← parseGroupName r.names t
    .ok (openGroup { r with names := name :: r.names } r.flags, rest)

def textAnchor (flags : Flags) (text line crlf : Anchor) : Pattern :=
  .anchor (if !flags.multiLine then text else if flags.crlf then crlf else line)

/-- Reads one item or operator. -/
def step (r : Reader) (c : Char) (t : Text) : Except PatternError (Reader × Text) :=
  match c with
  | '(' => r.parenthesis t
  | ')' => r.closeGroup.map fun r => (r, t)
  | '|' => .ok ({ r with group := r.group.nextBranch }, t)
  | '[' => do let (s, rest) ← parseClass r.flags t; .ok (r.push (.chars s), rest)
  | '?' => r.repetition 0 (some 1) t
  | '*' => r.repetition 0 none t
  | '+' => r.repetition 1 none t
  | '\x7b' =>
    if r.group.items.head?.bind id = none then .error .repetitionMissing
    else do
      let (least, most, rest) ← parseBounds r.flags t
      r.repetition least most (skipIgnored r.flags rest)
  | '\\' => do
    let (escape, rest) ← parseEscape r.flags t
    match escape with
    | .literal c => .ok (r.pushChar c, rest)
    | .set s => .ok (r.push (.chars s), rest)
    | .anchor a => .ok (r.push (.anchor a), rest)
  | '.' => do .ok (r.push (.chars (← r.flags.dot)), t)
  | '^' => .ok (r.push (textAnchor r.flags .textStart .lineStart .crlfLineStart), t)
  | '$' => .ok (r.push (textAnchor r.flags .textEnd .lineEnd .crlfLineEnd), t)
  | c => .ok (r.pushChar c, t)

/-- Reads a pattern to its end. Every step reads a character, so that as many steps as there are
characters suffice. -/
def parseFrom : (fuel : Nat) → Reader → Text → Except PatternError Pattern
  | 0, _, _ => .error .unclosedGroup
  | fuel + 1, r, t =>
    match skipIgnored r.flags t with
    | [] => if r.outer.isEmpty then .ok r.group.pattern else .error .unclosedGroup
    | c :: t => do
      let (r, rest) ← r.step c t
      parseFrom fuel r rest

end Reader

/-- The pattern that a text denotes. -/
def parse (t : Text) : Except PatternError Pattern :=
  Reader.parseFrom (t.length + 1) ⟨.initial, [], .start, []⟩ t

end Pattern
end Masthead
