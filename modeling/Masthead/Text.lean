/-!
# Text

Text is a list of Unicode characters. This module holds what the rest of the library needs of it:
blanks and line breaks, lengths in UTF-8 bytes, and the first occurrence of one text in another.
-/
namespace Masthead

abbrev Text := List Char

/-- White space, as the Unicode property `White_Space` has it. -/
def isBlank (c : Char) : Bool :=
  let n := c.toNat
  (9 ≤ n && n ≤ 13) || n == 0x20 || n == 0x85 || n == 0xA0 || n == 0x1680 ||
    (0x2000 ≤ n && n ≤ 0x200A) || n == 0x2028 || n == 0x2029 || n == 0x202F || n == 0x205F ||
    n == 0x3000

/-- Carriage return or line feed: a character of a line ending. -/
def isLineBreak (c : Char) : Bool := c == '\r' || c == '\n'

theorem isBlank_of_isLineBreak {c : Char} (h : isLineBreak c) : isBlank c := by
  simp only [isLineBreak, Bool.or_eq_true, beq_iff_eq] at h
  rcases h with rfl | rfl <;> decide

namespace Text

def toString (t : Text) : String := String.ofList t

def ofNat (n : Nat) : Text := Nat.toDigits 10 n

/-- Length in UTF-8 bytes. -/
def bytes (t : Text) : Nat := t.foldr (fun c n => c.utf8Size + n) 0

@[simp] theorem bytes_nil : bytes [] = 0 := rfl

@[simp] theorem bytes_cons (c : Char) (t : Text) : bytes (c :: t) = c.utf8Size + bytes t := rfl

@[simp] theorem bytes_append (s t : Text) : bytes (s ++ t) = bytes s + bytes t := by
  induction s with
  | nil => simp
  | cons c s ih => simp [ih, Nat.add_assoc]

def isAllBlank (t : Text) : Bool := t.all isBlank

def trimStart (t : Text) : Text := t.dropWhile isBlank

/-- Cuts off the longest end that consists of characters satisfying `p`. -/
def dropEndWhile (p : Char → Bool) (t : Text) : Text := (t.reverse.dropWhile p).reverse

def trimEnd (t : Text) : Text := t.dropEndWhile isBlank

def trim (t : Text) : Text := trimEnd (trimStart t)

/-- The maximal runs of elements that do not satisfy `p`, the empty ones between neighbours and at
both ends included: one more than there are elements satisfying `p`. -/
def splitAll {α : Type} (p : α → Bool) : List α → List (List α)
  | [] => [[]]
  | c :: t =>
    if p c then [] :: splitAll p t
    else match splitAll p t with
      | [] => [[c]]
      | run :: runs => (c :: run) :: runs

def firstWord (t : Text) : Text := t.takeWhile (!isBlank ·)

def firstLine (t : Text) : Text := t.takeWhile (!isLineBreak ·)

def words (t : Text) : List Text := (splitAll isBlank t).filter (· ≠ [])

/-- Joins pieces with `separator` between neighbours. -/
def join {α : Type} (separator : List α) (pieces : List (List α)) : List α :=
  (pieces.intersperse separator).flatten

/-- What stands before and after the first occurrence of `needle`. -/
def splitAtFirst? (needle : Text) : Text → Option (Text × Text)
  | [] => if needle = [] then some ([], []) else none
  | c :: t =>
    match needle.isPrefixOf? (c :: t) with
    | some rest => some ([], rest)
    | none => (splitAtFirst? needle t).map fun (before, rest) => (c :: before, rest)

@[simp] theorem isPrefixOf?_nil (t : Text) : List.isPrefixOf? [] t = some t := rfl

@[simp] theorem isPrefixOf?_cons_nil (c : Char) (needle : Text) :
    (c :: needle).isPrefixOf? [] = none := rfl

theorem isPrefixOf?_cons_cons (c d : Char) (needle t : Text) :
    (c :: needle).isPrefixOf? (d :: t) = if c == d then needle.isPrefixOf? t else none := rfl

theorem eq_append_of_isPrefixOf?_eq_some {needle t rest : Text}
    (h : needle.isPrefixOf? t = some rest) : t = needle ++ rest := by
  induction needle generalizing t with
  | nil => simpa using h
  | cons c needle ih =>
    cases t with
    | nil => simp at h
    | cons d t =>
      rw [isPrefixOf?_cons_cons] at h
      split at h
      · rename_i heq
        simp only [beq_iff_eq] at heq
        simp [heq, ih h]
      · simp at h

theorem eq_of_splitAtFirst?_eq_some {needle t before rest : Text}
    (h : splitAtFirst? needle t = some (before, rest)) : t = before ++ needle ++ rest := by
  induction t generalizing before with
  | nil =>
    simp only [splitAtFirst?] at h
    split at h <;> simp_all
  | cons c t ih =>
    simp only [splitAtFirst?] at h
    split at h
    · rename_i heq
      simp only [Option.some.injEq, Prod.mk.injEq] at h
      obtain ⟨rfl, rfl⟩ := h
      simpa using eq_append_of_isPrefixOf?_eq_some heq
    · simp only [Option.map_eq_some_iff, Prod.mk.injEq, Prod.exists] at h
      obtain ⟨b, r, hb, rfl, rfl⟩ := h
      simp [ih hb]

def contains (needle t : Text) : Bool := (splitAtFirst? needle t).isSome

/-- Replaces the occurrences of a non-empty `needle` from left to right. -/
def replaceOccurrences (needle new : Text) (hn : needle ≠ []) (t : Text) : Text :=
  match _h : splitAtFirst? needle t with
  | none => t
  | some (before, rest) => before ++ new ++ replaceOccurrences needle new hn rest
termination_by t.length
decreasing_by
  have := eq_of_splitAtFirst?_eq_some _h
  have := List.length_pos_iff.mpr hn
  subst t
  simp only [List.length_append]
  omega

/-- Replaces `needle` throughout `t`. The empty text occurs in front of every character and at the
end. -/
def replace (needle new t : Text) : Text :=
  if h : needle = [] then new ++ t.flatMap (fun c => c :: new)
  else replaceOccurrences needle new h t

end Text
end Masthead
