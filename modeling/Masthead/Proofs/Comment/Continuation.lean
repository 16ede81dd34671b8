import Masthead.Proofs.Comment.Steps
import Masthead.Proofs.Occurrences

namespace Masthead.Comment
open Text

section Words

variable {t : Text}

theorem takeWhile_append_of_mem {p : Char → Bool} {c : Char} (hc : c ∈ t) (hp : p c = false)
    (more : Text) : (t ++ more).takeWhile p = t.takeWhile p := by
  rw [List.takeWhile_append, if_neg]
  intro hlen
  have := List.takeWhile_eq_self_iff.mp ((List.takeWhile_prefix p).eq_of_length hlen) c hc
  simp [hp] at this

theorem dropWhile_append_of_mem {p : Char → Bool} {c : Char} (hc : c ∈ t) (hp : p c = false)
    (more : Text) : (t ++ more).dropWhile p = t.dropWhile p ++ more := by
  rw [List.dropWhile_append, if_neg]
  intro hnil
  have := List.dropWhile_eq_nil_iff.mp (List.isEmpty_iff.mp hnil) c hc
  simp [hp] at this

theorem mem_dropWhile_of_mem {p : Char → Bool} {c : Char} (hc : c ∈ t) (hp : p c = false) :
    c ∈ t.dropWhile p := by
  rw [← List.takeWhile_append_dropWhile (p := p) (l := t), List.mem_append] at hc
  rcases hc with hc | hc
  · simp [List.mem_takeWhile_imp hc] at hp
  · exact hc

variable {c : Char} (hc : c ∈ t) (hbreak : isLineBreak c) (more : Text)
include hc hbreak

theorem firstWord_append : (t ++ more).firstWord = t.firstWord :=
  takeWhile_append_of_mem hc (by simp [isBlank_of_isLineBreak hbreak]) more

theorem secondWord_append : Grammar.secondWord (t ++ more) = Grammar.secondWord t := by
  have hblank := isBlank_of_isLineBreak hbreak
  have hbehind : c ∈ t.dropWhile (!isBlank ·) := mem_dropWhile_of_mem hc (by simp [hblank])
  have hspace : (c == ' ' || c == '\t') = false := by
    cases h : (c == ' ' || c == '\t') with
    | false => rfl
    | true =>
      simp only [Bool.or_eq_true, beq_iff_eq] at h
      rcases h with rfl | rfl <;> simp [isLineBreak] at hbreak
  unfold Grammar.secondWord
  rw [dropWhile_append_of_mem hc (by simp [hblank]), dropWhile_append_of_mem hbehind hspace]
  exact firstWord_append (mem_dropWhile_of_mem hbehind hspace) hbreak more

theorem closesRegion_append (g : Grammar) : g.closesRegion (t ++ more) = g.closesRegion t := by
  simp only [Grammar.closesRegion, Grammar.splitsRegionEnd, firstWord_append hc hbreak,
    secondWord_append hc hbreak]

theorem wholeLine_append {kind : ItemKind} {item : Item} {rest : Text}
    (h : Reading.wholeLine kind t = .item item rest) :
    Reading.wholeLine kind (t ++ more) = .item item (rest ++ more) := by
  obtain ⟨rfl, rfl⟩ := Reading.item.inj h
  rw [Reading.wholeLine, dropWhile_append_of_mem hc (by simp [hbreak]), firstLine,
    takeWhile_append_of_mem hc (by simp [hbreak])]
  rfl

end Words

theorem readBlock_append {opener closer : Token} {t rest : Text} {item : Item}
    (h : Grammar.readBlock opener closer t = .item item rest) (more : Text) :
    Grammar.readBlock opener closer (t ++ more) = .item item (rest ++ more) := by
  rw [Grammar.readBlock_eq_item_iff] at h ⊢
  obtain ⟨inner, hsplit, rfl⟩ := h
  have hlen : opener.text.length ≤ t.length := by
    have hle := length_le_of_splitAtFirst? hsplit
    have hpos := List.length_pos_iff.mpr closer.ne_nil
    rw [List.length_drop] at hle
    omega
  refine ⟨inner, ?_, by rw [List.take_append_of_le_length hlen]⟩
  rw [List.drop_append_of_le_length hlen, splitAtFirst?_append closer.ne_nil hsplit]

variable {g : Grammar}

theorem readItem_append {t rest : Text} {item : Item} {c : Char} (hc : c ∈ t)
    (hbreak : isLineBreak c) (h : g.readItem t = .item item rest) (more : Text) :
    g.readItem (t ++ more) = .item item (rest ++ more) := by
  rw [Grammar.readItem_eq_item_iff] at h ⊢
  have hword : (t ++ more).firstWord = t.firstWord := firstWord_append hc hbreak more
  have hopens : g.opensRegion (t ++ more) = g.opensRegion t := by
    rw [Grammar.opensRegion, hword, Grammar.opensRegion]
  have hcloses := closesRegion_append hc hbreak more g
  cases h with
  | lineComment starts read =>
    exact .lineComment (hword ▸ starts) (wholeLine_append hc hbreak more read)
  | blockComment noLine starts read =>
    exact .blockComment (hword ▸ noLine) (hword ▸ starts) (readBlock_append read more)
  | regionStart noLine noBlock opens read =>
    exact .regionStart (hword ▸ noLine) (hword ▸ noBlock) (hopens ▸ opens)
      (wholeLine_append hc hbreak more read)
  | regionEnd noLine noBlock noStart closes read =>
    exact .regionEnd (hword ▸ noLine) (hword ▸ noBlock) (hopens ▸ noStart) (hcloses ▸ closes)
      (wholeLine_append hc hbreak more read)

/-- The same place with more text behind it. -/
def Place.behind (p : Place) (more : Text) : Place := { p with text := p.text ++ more }

variable {p q : Place} {piece : Piece} {pieces : List Piece} {c : Char}

theorem Step.behind (h : Step g p piece q) (hc : c ∈ q.text) (hbreak : isLineBreak c)
    (more : Text) : Step g (p.behind more) piece (q.behind more) where
  text := by simp [Place.behind, h.text]
  blank := h.blank
  gap := h.gap
  item := by
    have := readItem_append (List.mem_append_right piece.item.text hc) hbreak h.item more
    rwa [List.append_assoc] at this
  depth := h.depth
  started := h.started

theorem Steps.mem_text (h : Steps g p pieces q) (hc : c ∈ q.text) : c ∈ p.text := by
  rw [h.text]
  exact List.mem_append_right _ hc

/-- Pieces in front of a line break are read in front of any other text. -/
theorem Steps.behind (h : Steps g p pieces q) (hc : c ∈ q.text) (hbreak : isLineBreak c)
    (more : Text) : Steps g (p.behind more) pieces (q.behind more) := by
  induction h with
  | nil => exact .nil
  | cons step steps ih => exact .cons (step.behind (steps.mem_text hc) hbreak more) (ih hc)

end Masthead.Comment
