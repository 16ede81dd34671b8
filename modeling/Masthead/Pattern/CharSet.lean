import Masthead.Text.Case
import Masthead.Text.Table.WordCharacter

namespace Masthead

def isDecimalDigit (c : Char) : Bool := Text.inRanges Text.Table.decimalDigitRanges c

def isWordCharacter (c : Char) : Bool := Text.inRanges Text.Table.wordCharacterRanges c

namespace Text

/-- The characters with the same case folding, the character itself among them. -/
def caseMates (c : Char) : List Char :=
  let target := foldChar c
  let preimages := (Table.lowerShifts ++ Table.foldShifts).filterMap fun s =>
    let n := ((target.toNat : Int) - s.offset).toNat
    if s.covers n && foldChar (Char.ofNat n) == target then some (Char.ofNat n) else none
  c :: target :: preimages

end Text

inductive CharSet where
  | empty
  | range (first last : Char)
  | digit
  | blank
  | word
  | union (s t : CharSet)
  | inter (s t : CharSet)
  | complement (s : CharSet)
  | fold (s : CharSet)
  deriving DecidableEq, Repr

namespace CharSet

def contains : CharSet → Char → Bool
  | empty, _ => false
  | range first last, c => first ≤ c && c ≤ last
  | digit, c => isDecimalDigit c
  | blank, c => isBlank c
  | word, c => isWordCharacter c
  | union s t, c => s.contains c || t.contains c
  | inter s t, c => s.contains c && t.contains c
  | complement s, c => !s.contains c
  | fold s, c => (Text.caseMates c).any s.contains

def single (c : Char) : CharSet := range c c

def full : CharSet := complement empty

def ofChars (cs : List Char) : CharSet := cs.foldr (fun c s => union (single c) s) empty

def ofRanges (ranges : List (Char × Char)) : CharSet :=
  ranges.foldr (fun (first, last) s => union (range first last) s) empty

def diff (s t : CharSet) : CharSet := inter s (complement t)

def symmDiff (s t : CharSet) : CharSet := union (diff s t) (diff t s)

@[simp] theorem contains_full (c : Char) : full.contains c = true := rfl

@[simp] theorem contains_single (c d : Char) : (single c).contains d = decide (d = c) := by
  rw [Bool.eq_iff_iff]
  simp only [single, contains, Bool.and_eq_true, decide_eq_true_eq]
  constructor
  · rintro ⟨h₁, h₂⟩
    exact Char.le_antisymm h₂ h₁
  · rintro rfl
    exact ⟨Char.le_refl _, Char.le_refl _⟩

end CharSet
end Masthead
