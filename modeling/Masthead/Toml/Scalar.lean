import Masthead.Toml.Value

namespace Masthead.Toml

def isSpace (c : Char) : Bool := c == ' ' || c == '\t'

/-- Control characters other than the tab stand in no string and no comment. -/
def isPrintable (c : Char) : Bool := c == '\t' || (0x20 ≤ c.toNat && c.toNat != 0x7F)

def skipSpaces (t : Text) : Text := t.dropWhile isSpace

def newline? : Text → Option Text
  | '\n' :: t => some t
  | '\r' :: '\n' :: t => some t
  | _ => none

/-! ## Strings -/

def digitValue? (c : Char) : Option Nat :=
  if c.isDigit then some (c.toNat - '0'.toNat)
  else if 'a' ≤ c.toLower && c.toLower ≤ 'z' then some (c.toLower.toNat - 'a'.toNat + 10)
  else none

/-- The number that digits of a base denote; none if there is no digit. -/
def natOf? (base : Nat) (digits : Text) : Option Nat :=
  if digits = [] then none
  else digits.foldl (fun value c => do
    let n ← value
    let d ← digitValue? c
    if d < base then some (base * n + d) else none) (some 0)

def readCode (width : Nat) (t : Text) : Except TomlError (Char × Text) :=
  if t.length < width then .error .malformed
  else match natOf? 16 (t.take width) with
    | some n => if n.isValidChar then .ok (Char.ofNat n, t.drop width) else .error .malformed
    | none => .error .malformed

def readEscape : Text → Except TomlError (Char × Text)
  | 'b' :: t => .ok ('\x08', t)
  | 't' :: t => .ok ('\t', t)
  | 'n' :: t => .ok ('\n', t)
  | 'f' :: t => .ok ('\x0c', t)
  | 'r' :: t => .ok ('\r', t)
  | 'e' :: t => .ok ('\x1b', t)
  | '"' :: t => .ok ('"', t)
  | '\\' :: t => .ok ('\\', t)
  | 'x' :: t => readCode 2 t
  | 'u' :: t => readCode 4 t
  | 'U' :: t => readCode 8 t
  | _ => .error .malformed

def readBasic : (fuel : Nat) → Text → Except TomlError (Text × Text)
  | 0, _ => .error .malformed
  | _ + 1, [] => .error .malformed
  | _ + 1, '"' :: t => .ok ([], t)
  | fuel + 1, '\\' :: t => do
    let (c, rest) ← readEscape t
    let (cs, rest) ← readBasic fuel rest
    .ok (c :: cs, rest)
  | fuel + 1, c :: t =>
    if isPrintable c then do
      let (cs, rest) ← readBasic fuel t
      .ok (c :: cs, rest)
    else .error .malformed

def readLiteral (t : Text) : Except TomlError (Text × Text) :=
  let content := t.takeWhile (· != '\'')
  match t.drop content.length with
  | '\'' :: rest => if content.all isPrintable then .ok (content, rest) else .error .malformed
  | _ => .error .malformed

/-- Three quotes end a string of several lines; up to two more before them belong to it. -/
def closing? (quote : Char) (t : Text) : Option (Text × Text) :=
  let run := (t.takeWhile (· == quote)).length
  if run < 3 then none else some (t.take (min (run - 3) 2), t.drop (min run 5))

/-- Drops the blanks and line breaks behind a backslash that ends its line. -/
def continuation? (t : Text) : Option Text :=
  if (newline? (skipSpaces t)).isSome then
    some (t.dropWhile fun c => isSpace c || c == '\n' || c == '\r')
  else none

def readBasicLines : (fuel : Nat) → Text → Except TomlError (Text × Text)
  | 0, _ => .error .malformed
  | fuel + 1, t =>
    match closing? '"' t, newline? t, t with
    | some (quotes, rest), _, _ => .ok (quotes, rest)
    | none, some rest, _ => do
      let (cs, rest) ← readBasicLines fuel rest
      .ok ('\n' :: cs, rest)
    | none, none, '\\' :: t =>
      match continuation? t with
      | some rest => readBasicLines fuel rest
      | none => do
        let (c, rest) ← readEscape t
        let (cs, rest) ← readBasicLines fuel rest
        .ok (c :: cs, rest)
    | none, none, c :: t =>
      if isPrintable c then do
        let (cs, rest) ← readBasicLines fuel t
        .ok (c :: cs, rest)
      else .error .malformed
    | none, none, [] => .error .malformed

def readLiteralLines : (fuel : Nat) → Text → Except TomlError (Text × Text)
  | 0, _ => .error .malformed
  | fuel + 1, t =>
    match closing? '\'' t, newline? t, t with
    | some (quotes, rest), _, _ => .ok (quotes, rest)
    | none, some rest, _ => do
      let (cs, rest) ← readLiteralLines fuel rest
      .ok ('\n' :: cs, rest)
    | none, none, c :: t =>
      if isPrintable c then do
        let (cs, rest) ← readLiteralLines fuel t
        .ok (c :: cs, rest)
      else .error .malformed
    | none, none, [] => .error .malformed

/-- A string of several lines; a line break right behind its opening quotes does not count. -/
def readLines (read : Nat → Text → Except TomlError (Text × Text)) (t : Text) :
    Except TomlError (Text × Text) :=
  let t := (newline? t).getD t
  read (t.length + 1) t

def readString? : Text → Option (Except TomlError (Text × Text))
  | '"' :: '"' :: '"' :: t => some (readLines readBasicLines t)
  | '\'' :: '\'' :: '\'' :: t => some (readLines readLiteralLines t)
  | '"' :: t => some (readBasic (t.length + 1) t)
  | '\'' :: t => some (readLiteral t)
  | _ => none

/-! ## Numbers -/

/-- The digits of a number whose underscores all stand between digits. -/
def plainDigits? (isDigit : Char → Bool) (t : Text) : Option Text :=
  let groups := Text.splitAll (· == '_') t
  if groups.all fun g => g != [] && g.all isDigit then some groups.flatten else none

def unsign : Text → Option Bool × Text
  | '-' :: t => (some true, t)
  | '+' :: t => (some false, t)
  | t => (none, t)

def decimalDigits? (t : Text) : Option Text :=
  match plainDigits? Char.isDigit t with
  | some ('0' :: _ :: _) => none
  | digits => digits

def basedNumber? (base : Nat) (t : Text) : Option Nat :=
  (plainDigits? Char.isAlphanum t).bind (natOf? base)

def integer? (t : Text) : Option Int :=
  match t with
  | '0' :: 'x' :: t => (basedNumber? 16 t).map Int.ofNat
  | '0' :: 'o' :: t => (basedNumber? 8 t).map Int.ofNat
  | '0' :: 'b' :: t => (basedNumber? 2 t).map Int.ofNat
  | t =>
    let (sign, t) := unsign t
    ((decimalDigits? t).bind (natOf? 10)).map fun n =>
      if sign = some true then -(n : Int) else (n : Int)

def isFloat (t : Text) : Bool :=
  let (_, t) := unsign t
  if t = "inf".toList || t = "nan".toList then true
  else
    let mantissa := t.takeWhile fun c => c != 'e' && c != 'E'
    let exponent := t.drop mantissa.length
    let whole := mantissa.takeWhile (· != '.')
    let fraction := mantissa.drop whole.length
    let digits (t : Text) : Bool := (plainDigits? Char.isDigit t).isSome
    (decimalDigits? whole).isSome && (fraction = [] || digits (fraction.drop 1)) &&
      (exponent = [] || digits (unsign (exponent.drop 1)).2) && (fraction ++ exponent) != []

/-! ## Dates and times -/

def twoDigits? : Text → Option (Nat × Text)
  | a :: b :: t => (natOf? 10 [a, b]).map fun n => (n, t)
  | _ => none

def daysIn (year month : Nat) : Nat :=
  if month = 2 then
    if year % 4 = 0 ∧ (year % 100 ≠ 0 ∨ year % 400 = 0) then 29 else 28
  else if month = 4 ∨ month = 6 ∨ month = 9 ∨ month = 11 then 30 else 31

def afterDate? (t : Text) : Option Text := do
  let year ← natOf? 10 (t.take 4)
  match t.drop 4 with
  | '-' :: t =>
    let (month, t) ← twoDigits? t
    match t with
    | '-' :: t =>
      let (day, t) ← twoDigits? t
      if 1 ≤ month ∧ month ≤ 12 ∧ 1 ≤ day ∧ day ≤ daysIn year month then some t else none
    | _ => none
  | _ => none

/-- What follows a time of day at the front of a text. Seconds may be left out. -/
def afterTime? (t : Text) : Option Text := do
  let (hour, t) ← twoDigits? t
  match t with
  | ':' :: t =>
    let (minute, t) ← twoDigits? t
    if 23 < hour ∨ 59 < minute then none
    else match t with
      | ':' :: t =>
        let (second, t) ← twoDigits? t
        if 60 < second then none
        else match t with
          | '.' :: t =>
            let digits := t.takeWhile Char.isDigit
            if digits = [] then none else some (t.drop digits.length)
          | t => some t
      | t => some t
  | _ => none

def isOffset (t : Text) : Bool :=
  match t with
  | ['Z'] => true
  | ['z'] => true
  | _ =>
    match unsign t with
    | (some _, t) =>
      match twoDigits? t with
      | some (hour, ':' :: t) =>
        match twoDigits? t with
        | some (minute, []) => hour ≤ 23 && minute ≤ 59
        | _ => false
      | _ => false
    | _ => false

def isDateTime (t : Text) : Bool :=
  if afterTime? t = some [] then true
  else match afterDate? t with
    | none => false
    | some [] => true
    | some (c :: t) =>
      (c == 'T' || c == 't' || c == ' ') &&
        match afterTime? t with
        | some rest => rest = [] || isOffset rest
        | none => false

/-! ## Words -/

def isWordCharacter (c : Char) : Bool :=
  c.isAlphanum || c == '+' || c == '-' || c == '_' || c == '.' || c == ':'

/-- The word that a scalar without quotes is written as. A date and a time of day may be separated
by a space. -/
def scalarWord (t : Text) : Text :=
  let word := t.takeWhile isWordCharacter
  match afterDate? word, t.drop word.length with
  | some [], ' ' :: c :: _ =>
    if c.isDigit then
      word ++ ' ' :: (t.drop (word.length + 1)).takeWhile isWordCharacter
    else word
  | _, _ => word

def wordValue? (word : Text) : Option Value :=
  if word = "true".toList then some (.boolean true)
  else if word = "false".toList then some (.boolean false)
  else match integer? word with
    | some n => some (.integer n)
    | none =>
      if isFloat word then some (.float word)
      else if isDateTime word then some (.dateTime word)
      else none

def readWord (t : Text) : Except TomlError (Value × Text) :=
  let word := scalarWord t
  match wordValue? word with
  | some v => .ok (v, t.drop word.length)
  | none => .error .malformed

end Masthead.Toml
