import Masthead.Text
import Masthead.Text.Table.LowerCase
import Masthead.Text.Table.CaseContext

/-!
# Letter case

Lower-casing of whole texts and case folding of single characters. Lower-casing depends on the
context in one place: a capital sigma that ends a word becomes the final form.
-/
namespace Masthead.Text

def inRanges (ranges : List (Nat × Nat)) (c : Char) : Bool :=
  ranges.any fun (first, last) => first ≤ c.toNat && c.toNat ≤ last

def isCased (c : Char) : Bool := inRanges Table.casedRanges c

def isCaseIgnorable (c : Char) : Bool := inRanges Table.caseIgnorableRanges c

/-- The lower-case form of a character on its own; only the dotted capital I has two characters. -/
def lowerChar (c : Char) : Text :=
  if c.toNat < 0x80 then [c.toLower]
  else if c = '\u0130' then ['i', '\u0307']
  else [((Table.shifted? Table.lowerShifts c.toNat).map Char.ofNat).getD c]

/-- The first character that is not case-ignorable is cased. -/
def leadsToCased (t : Text) : Bool :=
  match t.dropWhile isCaseIgnorable with
  | [] => false
  | c :: _ => isCased c

/-- Lower-cases a text that stands behind `before`, which is given from its end backwards. -/
def lowerBehind (before : Text) : Text → Text
  | [] => []
  | c :: t =>
    let lowered :=
      if c = 'Σ' then [if leadsToCased before && !leadsToCased t then 'ς' else 'σ']
      else lowerChar c
    lowered ++ lowerBehind (c :: before) t

def lower (t : Text) : Text := lowerBehind [] t

/-- The suffix ends the text, whatever the case of its letters. -/
def endsWithIgnoringCase (t suffix : Text) : Bool := (lower suffix).isSuffixOf (lower t)

/-- Simple case folding: characters that differ in case only have one image. -/
def foldChar (c : Char) : Char :=
  if c.toNat < 0x80 then c.toLower
  else
    match Table.shifted? Table.foldShifts c.toNat with
    | some n => Char.ofNat n
    | none => ((Table.shifted? Table.lowerShifts c.toNat).map Char.ofNat).getD c

end Masthead.Text
