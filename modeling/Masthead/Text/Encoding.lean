import Masthead.Text

/-!
# Text in bytes

The names of files are bytes, which need not encode a text. Where one is shown as a text, a
replacement character stands for every longest part that starts a character without finishing it, and
for every byte that starts none.
-/
namespace Masthead.Text

/-- The bytes of a text in UTF-8. -/
def encode (t : Text) : List UInt8 := t.flatMap String.utf8EncodeChar

def replacement : Char := '\uFFFD'

/-- The first bytes of a character: their value, how many bytes are missing, and the least and the
greatest that the next one can be. -/
structure Opening where
  value : Nat
  missing : Nat
  low : Nat
  high : Nat
  deriving DecidableEq, Repr

/-- What a byte opens that is not a character of its own. Bounds on the second byte exclude values
that have a shorter encoding, surrogates and values that are too large. -/
def opening? (b : Nat) : Option Opening :=
  if b < 0xC2 then none
  else if b < 0xE0 then some ⟨b - 0xC0, 1, 0x80, 0xBF⟩
  else if b < 0xF0 then
    some ⟨b - 0xE0, 2, if b = 0xE0 then 0xA0 else 0x80, if b = 0xED then 0x9F else 0xBF⟩
  else if b < 0xF5 then
    some ⟨b - 0xF0, 3, if b = 0xF0 then 0x90 else 0x80, if b = 0xF4 then 0x8F else 0xBF⟩
  else none

def character (value : Nat) : Char :=
  if value.isValidChar then Char.ofNat value else replacement

/-- What a byte is at the start of a character, and what it opens. -/
def decodeFirst (b : Nat) : Text × Option Opening :=
  if b < 0x80 then ([character b], none)
  else match opening? b with
    | some opening => ([], some opening)
    | none => ([replacement], none)

/-- What comes of one more byte, and what is open behind it. -/
def decodeNext (opening : Option Opening) (b : Nat) : Text × Option Opening :=
  match opening with
  | none => decodeFirst b
  | some o =>
    if b < o.low ∨ o.high < b then (replacement :: (decodeFirst b).1, (decodeFirst b).2)
    else
      let value := o.value * 64 + (b - 0x80)
      if o.missing ≤ 1 then ([character value], none)
      else ([], some ⟨value, o.missing - 1, 0x80, 0xBF⟩)

def decodeFrom : Option Opening → List UInt8 → Text
  | none, [] => []
  | some _, [] => [replacement]
  | opening, b :: bytes =>
    (decodeNext opening b.toNat).1 ++ decodeFrom (decodeNext opening b.toNat).2 bytes

def decode (bytes : List UInt8) : Text := decodeFrom none bytes

def decode? (bytes : List UInt8) : Option Text :=
  if (decode bytes).encode = bytes then some (decode bytes) else none

end Masthead.Text
