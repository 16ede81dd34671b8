import Masthead.Header.Rule
import Masthead.Proofs.DominantEnding

namespace Masthead.Header
open Text LineEnding

variable {e : LineEnding} {lines : List Text}

@[simp] theorem linesText_nil (e : LineEnding) : linesText e [] = e.text := by
  simp [linesText, Text.join]

@[simp] theorem linesText_singleton (e : LineEnding) (line : Text) :
    linesText e [line] = line ++ e.text := by
  simp [linesText, Text.join]

theorem linesText_cons (e : LineEnding) (line : Text) (hne : lines ≠ []) :
    linesText e (line :: lines) = line ++ e.text ++ linesText e lines := by
  obtain ⟨next, lines, rfl⟩ := List.exists_cons_of_ne_nil hne
  simp [linesText, Text.join]

theorem linesText_concat (e : LineEnding) (hne : lines ≠ []) (last : Text) :
    linesText e (lines ++ [last]) = linesText e lines ++ (last ++ e.text) := by
  induction lines with
  | nil => exact absurd rfl hne
  | cons line lines ih =>
    cases lines with
    | nil => simp [linesText_cons]
    | cons next lines =>
      rw [List.cons_append, linesText_cons e line (by simp), ih (by simp),
        linesText_cons e line (by simp)]
      simp

theorem exists_linesText_eq_append (e : LineEnding) (lines : List Text) :
    ∃ front, linesText e lines = front ++ e.text := ⟨_, rfl⟩

theorem linesText_ne_nil (e : LineEnding) (lines : List Text) : linesText e lines ≠ [] := by
  simp [linesText, text_ne_nil]

theorem lf_mem_linesText_lf (lines : List Text) : '\n' ∈ linesText .lf lines := by
  obtain ⟨front, hfront⟩ := exists_linesText_eq_append .lf lines
  simp [hfront, LineEnding.text]

/-- No line has a line break in it. -/
def Unbroken (lines : List Text) : Prop := ∀ line ∈ lines, ∀ c ∈ line, isLineBreak c = false

instance : Decidable (Unbroken lines) :=
  decidable_of_iff (lines.all (·.all (!isLineBreak ·)) = true) (by simp [Unbroken])

theorem notMem_of_isLineBreak_eq_false {line : Text} (h : ∀ c ∈ line, isLineBreak c = false) :
    '\r' ∉ line := fun hm => by simpa [isLineBreak] using h _ hm

theorem Unbroken.cr_notMem_linesText_lf (h : Unbroken lines) : '\r' ∉ linesText .lf lines := by
  induction lines with
  | nil => simp [LineEnding.text]
  | cons line lines ih =>
    have hline := notMem_of_isLineBreak_eq_false (h line (by simp))
    cases lines with
    | nil => simp [hline, LineEnding.text]
    | cons next lines =>
      have := ih fun line hm => h line (List.mem_cons_of_mem _ hm)
      simpa [linesText_cons, hline, LineEnding.text] using this

theorem Unbroken.linesText_eq_respell (h : Unbroken lines) (e : LineEnding) :
    linesText e lines = e.respell (linesText .lf lines) := by
  induction lines with
  | nil => simp [LineEnding.text]
  | cons line lines ih =>
    have hself := respell_eq_self (e := e) (h line (by simp))
    have hline := notMem_of_isLineBreak_eq_false (h line (by simp))
    cases lines with
    | nil => simp [respell_append hline, hself, LineEnding.text]
    | cons next lines =>
      have hrest := ih fun line hm => h line (List.mem_cons_of_mem _ hm)
      rw [linesText_cons e line (by simp), linesText_cons .lf line (by simp), List.append_assoc,
        List.append_assoc, respell_append hline, hself, hrest]
      simp [LineEnding.text]

theorem Unbroken.dominant_linesText (h : Unbroken lines) (e : LineEnding) :
    dominant (linesText e lines) = e := by
  rw [h.linesText_eq_respell]
  exact dominant_respell h.cr_notMem_linesText_lf (lf_mem_linesText_lf lines)

theorem Unbroken.replaceAll_linesText (h : Unbroken lines) (e : LineEnding) :
    replaceAll e.text (linesText e lines) = linesText e lines := by
  rw [h.linesText_eq_respell]
  exact replaceAll_respell h.cr_notMem_linesText_lf

end Masthead.Header
