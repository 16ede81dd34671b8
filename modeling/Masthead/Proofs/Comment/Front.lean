import Masthead.Proofs.Comment.Complete

namespace Masthead.Comment
open Text

variable {g : Grammar} {p q : Place}

theorem Scan.found_cons {blanks last : Text} {item : Item} {others : List Piece} {stop : Stop}
    (hitem : item.text.isAllBlank = false) (n : Nat) :
    Scan.found ⟨⟨blanks, item⟩ :: others, last, stop⟩ (n + 1) =
      blanks ++ Scan.found ⟨⟨[], item⟩ :: others, last, stop⟩ (n + 1) := by
  have hcut : ∀ t : Text, dropIndent (blanks ++ (item.text ++ t)) =
      blanks ++ dropIndent (item.text ++ t) := fun t =>
    dropIndent_append_of_not_isAllBlank (by simp [hitem]) blanks
  cases hdrop : others.drop n with
  | cons opening more =>
    rw [Scan.found_of_drop (s := ⟨⟨blanks, item⟩ :: others, last, stop⟩) (n := n + 1) hdrop,
      Scan.found_of_drop (s := ⟨⟨[], item⟩ :: others, last, stop⟩) (n := n + 1) hdrop]
    simp [piecesText, Piece.text, hcut]
  | nil =>
    have hlen : others.length ≤ n := List.drop_eq_nil_iff.mp hdrop
    rw [Scan.found_of_length_le (by simpa using hlen),
      Scan.found_of_length_le (by simpa using hlen)]
    split <;> simp [Scan.text, piecesText, Piece.text, hcut]

theorem leading_of_halts {blanks blanks' core last : Text} {stop : Stop}
    (hb : blanks.isAllBlank) (hb' : blanks'.isAllBlank) (hcore : core.trimStart = core)
    (h : Halts g (.start (blanks ++ core)) last stop) : g.leading (blanks' ++ core) = .ok [] := by
  cases stop with
  | endOfText =>
    have hnil : core.isAllBlank := by
      have := h.1 ▸ h.2.1
      simp only [Place.start, isAllBlank_append, Bool.and_eq_true] at this
      exact this.2
    exact leading_eq_ok_iff.mpr ⟨⟨[], _, .endOfText⟩, _, .nil,
      ⟨rfl, by simp [Place.start, hb', hnil], fun hw => by simp [Place.watches, Place.start] at hw⟩,
      by simp [Scan.leading]⟩
  | blankLine => exact absurd h.1 (by simp [Place.watches, Place.start])
  | otherText =>
    obtain ⟨front, htext, hfrontblank, -, hfront, hne, hitem⟩ := h
    obtain ⟨-, rfl⟩ := append_core_inj hb hfrontblank hcore hfront htext
    exact leading_eq_ok_iff.mpr ⟨⟨[], blanks', .otherText⟩, _, .nil,
      ⟨core, rfl, hb', fun hw => by simp [Place.watches, Place.start] at hw, hfront, hne, hitem⟩,
      by simp [Scan.leading]⟩

theorem leading_of_step {blanks blanks' core last : Text} {piece : Piece} {others : List Piece}
    {stop : Stop} {n : Nat} (hb : blanks.isAllBlank) (hb' : blanks'.isAllBlank)
    (hcore : core.trimStart = core) (step : Step g (.start (blanks ++ core)) piece p)
    (steps : Steps g p others q) (hhalt : Halts g q last stop)
    (hn : closedCount? 0 (piece :: others) = some n) :
    g.leading (blanks' ++ core) =
      .ok (if n = 0 then [] else Scan.found ⟨⟨blanks', piece.item⟩ :: others, last, stop⟩ n) := by
  obtain ⟨-, step'⟩ := step.of_blanks (r := .start (blanks' ++ core)) hb hb' hcore rfl rfl rfl
    (by simp [Place.watches, Place.start])
  rw [← Scan.leading_eq (s := ⟨⟨blanks', piece.item⟩ :: others, last, stop⟩) (.cons step' steps) hn]
  exact leading_eq_ok_iff.mpr ⟨⟨_, last, stop⟩, q, .cons step' steps, hhalt, rfl⟩

theorem Scan.found_core {core last : Text} {item : Item} {others : List Piece} {stop : Stop}
    {n : Nat} (hcore : core.trimStart = core)
    (hsteps : Steps g (.start core) (⟨[], item⟩ :: others) q) (hhalt : Halts g q last stop)
    (hn : closedCount? 0 (⟨[], item⟩ :: others) = some n) (h0 : n ≠ 0) :
    trimStart (Scan.found ⟨⟨[], item⟩ :: others, last, stop⟩ n) =
        Scan.found ⟨⟨[], item⟩ :: others, last, stop⟩ n ∧
      Scan.found ⟨⟨[], item⟩ :: others, last, stop⟩ n ≠ [] := by
  have hstart := Scan.found_isPrefix (s := ⟨⟨[], item⟩ :: others, last, stop⟩) hsteps hhalt n
  have hblank := Scan.not_isAllBlank_found (s := ⟨⟨[], item⟩ :: others, last, stop⟩) hsteps hn h0
  refine ⟨trimStart_of_isPrefix hstart hcore, ?_⟩
  intro hnil
  simp [hnil] at hblank

theorem exists_leading_core {blanks blanks' core comment : Text}
    (hb : blanks.isAllBlank) (hb' : blanks'.isAllBlank) (hcore : core.trimStart = core)
    (h : g.leading (blanks ++ core) = .ok comment) :
    ∃ found : Text, found.trimStart = found ∧
      comment = (if found = [] then [] else blanks ++ found) ∧
      g.leading (blanks' ++ core) = .ok (if found = [] then [] else blanks' ++ found) := by
  obtain ⟨⟨pieces, last, stop⟩, q, hsteps, hhalt, hs⟩ := leading_eq_ok_iff.mp h
  cases hsteps with
  | nil =>
    obtain rfl : [] = comment := by simpa [Scan.leading] using hs
    exact ⟨[], rfl, rfl, by simp [leading_of_halts hb hb' hcore hhalt]⟩
  | @cons _ p _ piece others step steps =>
    obtain ⟨n, hn⟩ := exists_closedCount?_zero (piece :: others)
    have hsame := leading_of_step hb hb hcore step steps hhalt hn
    obtain rfl := Except.ok.inj (h.symm.trans hsame)
    rw [leading_of_step hb hb' hcore step steps hhalt hn]
    cases n with
    | zero => exact ⟨[], rfl, rfl, rfl⟩
    | succ n =>
      have hnil : isAllBlank [] := rfl
      obtain ⟨-, step₀⟩ := step.of_blanks (r := .start core) hb hnil hcore rfl rfl rfl
        (by simp [Place.watches, Place.start])
      obtain ⟨hfound, hne⟩ := Scan.found_core hcore (.cons step₀ steps) hhalt hn n.succ_ne_zero
      refine ⟨_, hfound, ?_, ?_⟩
      · rw [if_neg n.succ_ne_zero, if_neg hne, Scan.found_cons step.not_isAllBlank]
      · rw [if_neg n.succ_ne_zero, if_neg hne, Scan.found_cons step.not_isAllBlank]

theorem leading_of_trimStart_eq {t u comment : Text} (h : t.trimStart = u.trimStart)
    (ht : g.leading t = .ok comment) :
    g.leading u = .ok (if comment = [] then [] else u.takeWhile isBlank ++ comment.trimStart) := by
  rw [← takeWhile_append_trimStart t] at ht
  obtain ⟨found, hfound, rfl, hu⟩ := exists_leading_core (isAllBlank_takeWhile t)
    (isAllBlank_takeWhile u) (trimStart_trimStart t) ht
  rw [h, takeWhile_append_trimStart] at hu
  rw [hu]
  split
  · rfl
  · rename_i hne
    have : t.takeWhile isBlank ++ found ≠ [] := by simp [hne]
    rw [if_neg this, trimStart_append (isAllBlank_takeWhile t), hfound]

end Masthead.Comment
