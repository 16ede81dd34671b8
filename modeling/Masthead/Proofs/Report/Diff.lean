import Masthead.Proofs.Lines
import Masthead.Report.Diff

/-!
# Diffs lose nothing

A diff consists of the lines of a script behind their marks, so both texts can be read off it again:
the old one from the lines that are kept or deleted, the new one from those that are kept or
inserted. It does not matter which script the diff is made of, as long as it turns the lines of the
one text into those of the other.
-/
namespace Masthead.Report
open Text LineEnding

/-! ## Scripts -/

namespace Change

variable {α : Type} {changes : List (Change α)} {xs ys : List α}

def mark : Change α → Char
  | keep _ => ' '
  | delete _ => '-'
  | insert _ => '+'

def value : Change α → α
  | keep a => a
  | delete a => a
  | insert a => a

/-- The changes turn the one list into the other. -/
structure Turns (changes : List (Change α)) (xs ys : List α) : Prop where
  old : changes.filterMap old? = xs
  new : changes.filterMap new? = ys

theorem Turns.value_mem (h : Turns changes xs ys) {change : Change α} (hc : change ∈ changes) :
    change.value ∈ xs ∨ change.value ∈ ys := by
  rw [← h.old, ← h.new]
  cases change with
  | keep a => exact .inl (List.mem_filterMap.mpr ⟨_, hc, rfl⟩)
  | delete a => exact .inl (List.mem_filterMap.mpr ⟨_, hc, rfl⟩)
  | insert a => exact .inr (List.mem_filterMap.mpr ⟨_, hc, rfl⟩)

end Change

theorem turns_script {α : Type} [DecidableEq α] (xs ys : List α) :
    Change.Turns (Diff.script xs ys) xs ys :=
  ⟨Diff.old_scriptFrom _ _ xs ys, Diff.new_scriptFrom _ _ xs ys⟩

/-! ## Lines -/

variable {t line l : Text} {ls : Lines} {e : LineEnding} {changes : List (Change Text)}
  {old new : Text}

/-- A text whose last line has an ending; a line feed ends the line that had none. -/
def ended (t : Text) : Text := if t.getLast?.any (!isLineBreak ·) then t ++ ['\n'] else t

@[simp] theorem ended_nil : ended [] = [] := rfl

theorem ended_text (line : Text) (e : LineEnding) : ended (line ++ e.text) = line ++ e.text := by
  obtain ⟨c, hlast, hc⟩ := e.exists_getLast?_text
  rw [ended, List.getLast?_append_of_ne_nil _ e.text_ne_nil, hlast, if_neg]
  simp [hc]

theorem ended_unbroken (h : ∀ c ∈ line, isLineBreak c = false) (hne : line ≠ []) :
    ended line = line ++ ['\n'] := by
  obtain ⟨init, c, rfl⟩ := (List.eq_nil_or_concat' line).resolve_left hne
  rw [ended, List.getLast?_concat, if_pos]
  simp [h c (by simp)]

theorem ended_append (s : Text) (hne : t ≠ []) : ended (s ++ t) = s ++ ended t := by
  rw [ended, ended, List.getLast?_append_of_ne_nil _ hne]
  split <;> simp

theorem markedLine_eq (mark : Char) (hne : l ≠ []) : markedLine mark l = mark :: ended l := by
  obtain ⟨init, c, rfl⟩ := (List.eq_nil_or_concat' l).resolve_left hne
  rw [markedLine, ended, List.getLast?_concat]
  cases h : isLineBreak c <;> simp [h]

theorem ne_nil_of_mem_whole (h : Lines.Cuts t ls) (hl : l ∈ ls.whole) : l ≠ [] := by
  obtain ⟨line, -, ⟨e, rfl⟩ | ⟨rfl, hne⟩⟩ := h.of_mem_whole hl
  · simp [e.text_ne_nil]
  · exact hne

theorem exists_ended_of_mem_whole (h : Lines.Cuts t ls) (hl : l ∈ ls.whole) :
    ∃ (line : Text) (e : LineEnding), (∀ c ∈ line, isLineBreak c = false) ∧
      ended l = line ++ e.text := by
  obtain ⟨line, hline, ⟨e, rfl⟩ | ⟨rfl, hne⟩⟩ := h.of_mem_whole hl
  · exact ⟨line, e, hline, ended_text line e⟩
  · exact ⟨l, .lf, hline, ended_unbroken hline hne⟩

/-- The lines of a text, each with an ending, make up the text with an ending. -/
theorem flatMap_ended_whole (h : Lines.Cuts t ls) : ls.whole.flatMap ended = ended t := by
  induction h with
  | @last line unbroken => by_cases hnil : line = [] <;> simp [Lines.whole, hnil]
  | @next line t e ls unbroken _ rest ih =>
    have hwhole : Lines.whole ⟨(line, e) :: ls.ended, ls.last⟩ = (line ++ e.text) :: ls.whole := rfl
    rw [hwhole, List.flatMap_cons, ended_text, ih, ← List.append_assoc]
    by_cases hnil : t = []
    · simp [hnil, ended_text]
    · rw [ended_append _ hnil]

/-! ## Marked lines -/

theorem render_eq (change : Change Text) :
    change.render = markedLine change.mark change.value := by cases change <;> rfl

theorem isLineBreak_mark (change : Change Text) : isLineBreak change.mark = false := by
  cases change <;> rfl

theorem whole_flatMap_render (h : ∀ change ∈ changes, ∃ (line : Text) (e : LineEnding),
      (∀ c ∈ line, isLineBreak c = false) ∧ change.render = change.mark :: (line ++ e.text)) :
    (Lines.ofText (changes.flatMap Change.render)).whole = changes.map Change.render := by
  induction changes with
  | nil => rfl
  | cons change changes ih =>
    obtain ⟨line, e, hline, hrender⟩ := h change (by simp)
    have hrest := ih fun other hother => h other (List.mem_cons_of_mem _ hother)
    have hhead : (changes.flatMap Change.render).head? ≠ some '\n' := by
      cases changes with
      | nil => simp
      | cons next changes =>
        rw [List.flatMap_cons, render_eq, markedLine]
        have hmark := isLineBreak_mark next
        simp only [List.cons_append, List.head?_cons, ne_eq, Option.some.injEq]
        rintro hlf
        simp [hlf, isLineBreak] at hmark
    have hmarked : ∀ c ∈ change.mark :: line, isLineBreak c = false :=
      List.forall_mem_cons.mpr ⟨isLineBreak_mark change, hline⟩
    have hcut := Lines.whole_line_append (e := e) hmarked fun _ => hhead
    rw [List.flatMap_cons, List.map_cons, ← hrest, hrender]
    simpa using hcut

/-- What the lines that have one of the marks say, without the marks. -/
def unmarked (marks : List Char) (lines : List Text) : Text :=
  (lines.filter fun line => line.head?.any (· ∈ marks)).flatMap List.tail

theorem unmarked_map_render {marks : List Char} {side : Change Text → Option Text}
    (hside : ∀ change, side change = if change.mark ∈ marks then some change.value else none)
    (hne : ∀ change ∈ changes, change.value ≠ []) :
    unmarked marks (changes.map Change.render) = (changes.filterMap side).flatMap ended := by
  induction changes with
  | nil => rfl
  | cons change changes ih =>
    have hrest := ih fun other hother => hne other (List.mem_cons_of_mem _ hother)
    have hrender : change.render = change.mark :: ended change.value := by
      rw [render_eq, markedLine_eq _ (hne change (by simp))]
    unfold unmarked at hrest ⊢
    rw [List.map_cons, List.filter_cons, List.filterMap_cons, hside, hrender]
    by_cases hmark : change.mark ∈ marks
    · simp [hmark, hrest]
    · simp [hmark, hrest]

theorem old?_eq (change : Change Text) :
    change.old? = if change.mark ∈ [' ', '-'] then some change.value else none := by
  cases change <;> rfl

theorem new?_eq (change : Change Text) :
    change.new? = if change.mark ∈ [' ', '+'] then some change.value else none := by
  cases change <;> rfl

/-- Behind the heading and in front of the last line feed, a diff consists of lines that start with
a mark. Without their marks, the kept and deleted ones are the old text and the kept and inserted
ones the new text, where a last line without an ending has got a line feed. -/
theorem exists_marked_lines (script : List Text → List Text → List (Change Text)) (path : Path)
    (old new : Text) (h : Change.Turns (script (Lines.ofText old).whole (Lines.ofText new).whole)
      (Lines.ofText old).whole (Lines.ofText new).whole) :
    ∃ body, renderDiffBy script path old new = diffHeading path ++ body ++ ['\n'] ∧
      (∀ line ∈ (Lines.ofText body).whole, ∃ mark ∈ [' ', '-', '+'], line.head? = some mark) ∧
      unmarked [' ', '-'] (Lines.ofText body).whole = ended old ∧
      unmarked [' ', '+'] (Lines.ofText body).whole = ended new := by
  have hold := Lines.cuts_ofText old
  have hnew := Lines.cuts_ofText new
  generalize hchanges : script (Lines.ofText old).whole (Lines.ofText new).whole = changes at h
  have hne : ∀ change ∈ changes, change.value ≠ [] := fun change hc =>
    (h.value_mem hc).elim (ne_nil_of_mem_whole hold) (ne_nil_of_mem_whole hnew)
  have hlines : (Lines.ofText (changes.flatMap Change.render)).whole = changes.map Change.render := by
    refine whole_flatMap_render fun change hc => ?_
    obtain ⟨line, e, hline, hended⟩ := (h.value_mem hc).elim (exists_ended_of_mem_whole hold)
      (exists_ended_of_mem_whole hnew)
    exact ⟨line, e, hline, by rw [render_eq, markedLine_eq _ (hne change hc), hended]⟩
  refine ⟨changes.flatMap Change.render, by rw [renderDiffBy, hchanges], ?_, ?_, ?_⟩
  · rw [hlines]
    intro line hline
    obtain ⟨change, -, rfl⟩ := List.mem_map.mp hline
    exact ⟨change.mark, by cases change <;> simp [Change.mark], by rw [render_eq]; rfl⟩
  · rw [hlines, unmarked_map_render old?_eq hne, h.old, flatMap_ended_whole hold]
  · rw [hlines, unmarked_map_render new?_eq hne, h.new, flatMap_ended_whole hnew]

/-- Marks at the front of lines, lone carriage returns and a last line without an ending are no
obstacle to reading both texts off their diff. -/
theorem exists_marked_lines_mixed :
    Change.Turns (Diff.script (Lines.ofText "a\r\n-b\rc".toList).whole
        (Lines.ofText "a\r\n+d\r-b".toList).whole)
      (Lines.ofText "a\r\n-b\rc".toList).whole (Lines.ofText "a\r\n+d\r-b".toList).whole ∧
    ∃ body, renderDiff (Path.ofText "x.go".toList) "a\r\n-b\rc".toList "a\r\n+d\r-b".toList =
        diffHeading (Path.ofText "x.go".toList) ++ body ++ ['\n'] ∧
      (∀ line ∈ (Lines.ofText body).whole, ∃ mark ∈ [' ', '-', '+'], line.head? = some mark) ∧
      unmarked [' ', '-'] (Lines.ofText body).whole = "a\r\n-b\rc\n".toList ∧
      unmarked [' ', '+'] (Lines.ofText body).whole = "a\r\n+d\r-b\n".toList :=
  ⟨turns_script _ _, exists_marked_lines Diff.script (Path.ofText "x.go".toList) "a\r\n-b\rc".toList
    "a\r\n+d\r-b".toList (turns_script _ _)⟩

end Masthead.Report
