import Masthead.Proofs.Blanks

namespace Masthead.Text

/-- What stands before and behind a byte; none if no character starts or ends there. -/
def splitAtByte? : Text → ℕ → Option (Text × Text)
  | t, 0 => some ([], t)
  | [], _ + 1 => none
  | c :: t, offset + 1 =>
    if c.utf8Size ≤ offset + 1 then
      (splitAtByte? t (offset + 1 - c.utf8Size)).map fun (front, rest) => (c :: front, rest)
    else none

def sliceFrom? (t : Text) (offset : ℕ) : Option Text := (t.splitAtByte? offset).map Prod.snd

def sliceTo? (t : Text) (offset : ℕ) : Option Text := (t.splitAtByte? offset).map Prod.fst

/-- A byte at which a text can be cut. -/
def IsBoundary (t : Text) (offset : ℕ) : Prop :=
  ∃ front rest, t = front ++ rest ∧ front.bytes = offset

variable {t front rest : Text} {offset : ℕ}

theorem splitAtByte?_append (front rest : Text) :
    (front ++ rest).splitAtByte? front.bytes = some (front, rest) := by
  induction front with
  | nil => simp [splitAtByte?]
  | cons c front ih =>
    obtain ⟨n, hn⟩ : ∃ n, c.utf8Size + bytes front = n + 1 := by
      have := c.utf8Size_pos
      exact Nat.exists_eq_succ_of_ne_zero (by omega)
    have hrest : n + 1 - c.utf8Size = bytes front := by omega
    rw [bytes_cons, hn, List.cons_append, splitAtByte?, if_pos (by omega), hrest, ih]
    rfl

theorem splitAtByte?_eq_some_iff :
    t.splitAtByte? offset = some (front, rest) ↔ t = front ++ rest ∧ front.bytes = offset := by
  constructor
  · intro h
    fun_induction splitAtByte? t offset generalizing front with
    | case1 t =>
      obtain ⟨rfl, rfl⟩ : [] = front ∧ t = rest := by simpa using h
      exact ⟨rfl, rfl⟩
    | case2 => cases h
    | case3 c t offset hle ih =>
      obtain ⟨front, hfront, rfl⟩ : ∃ f, splitAtByte? t (offset + 1 - c.utf8Size) = some (f, rest) ∧
          c :: f = front := by simpa using h
      obtain ⟨rfl, hbytes⟩ := ih hfront
      exact ⟨rfl, by rw [bytes_cons]; omega⟩
    | case4 => cases h
  · rintro ⟨rfl, rfl⟩
    exact splitAtByte?_append front rest

@[simp] theorem sliceFrom?_append (front rest : Text) :
    (front ++ rest).sliceFrom? front.bytes = some rest := by
  rw [sliceFrom?, splitAtByte?_append]
  rfl

@[simp] theorem sliceTo?_append (front rest : Text) :
    (front ++ rest).sliceTo? front.bytes = some front := by
  rw [sliceTo?, splitAtByte?_append]
  rfl

theorem sliceFrom?_eq_some_iff :
    t.sliceFrom? offset = some rest ↔ ∃ front, t = front ++ rest ∧ front.bytes = offset := by
  simp only [sliceFrom?, Option.map_eq_some_iff, Prod.exists, splitAtByte?_eq_some_iff]
  constructor
  · rintro ⟨front, rest', h, rfl⟩
    exact ⟨front, h⟩
  · rintro ⟨front, h⟩
    exact ⟨front, rest, h, rfl⟩

theorem lt_bytes_of_sliceFrom? {c : Char} (h : t.sliceFrom? offset = some (c :: rest)) :
    offset < t.bytes := by
  obtain ⟨front, rfl, rfl⟩ := sliceFrom?_eq_some_iff.mp h
  have hc := c.utf8Size_pos
  rw [bytes_append, bytes_cons]
  omega

theorem isSome_splitAtByte?_iff : (t.splitAtByte? offset).isSome ↔ t.IsBoundary offset := by
  simp only [Option.isSome_iff_exists, Prod.exists, splitAtByte?_eq_some_iff, IsBoundary]

instance (t : Text) (offset : ℕ) : Decidable (t.IsBoundary offset) :=
  decidable_of_iff _ isSome_splitAtByte?_iff

theorem isSome_sliceTo?_iff : (t.sliceTo? offset).isSome ↔ t.IsBoundary offset := by
  rw [sliceTo?, Option.isSome_map, isSome_splitAtByte?_iff]

theorem isBoundary_append (front rest : Text) : (front ++ rest).IsBoundary front.bytes :=
  ⟨front, rest, rfl, rfl⟩

theorem isBoundary_of_isPrefix (h : front <+: t) : t.IsBoundary front.bytes := by
  obtain ⟨rest, rfl⟩ := h
  exact isBoundary_append front rest

theorem IsBoundary.le (h : t.IsBoundary offset) : offset ≤ t.bytes := by
  obtain ⟨front, rest, rfl, rfl⟩ := h
  simp

/-- The second character takes three bytes. -/
example : IsBoundary ['a', '€'] 1 ∧ ¬ IsBoundary ['a', '€'] 3 ∧ IsBoundary ['a', '€'] 4 := by
  decide

end Masthead.Text
