import Masthead.Proofs.DominantEnding

namespace Masthead.Lines
open LineEnding

variable {line t : Text} {e : LineEnding} {ls : Lines}

/-- The text is cut into these lines, and no pair is taken apart. -/
inductive Cuts : Text → Lines → Prop
  | last {line : Text} (unbroken : ∀ c ∈ line, isLineBreak c = false) : Cuts line ⟨[], line⟩
  | next {line t : Text} {e : LineEnding} {ls : Lines}
      (unbroken : ∀ c ∈ line, isLineBreak c = false) (whole : e = .cr → t.head? ≠ some '\n')
      (rest : Cuts t ls) : Cuts (line ++ (e.text ++ t)) ⟨(line, e) :: ls.ended, ls.last⟩

theorem ofText_text_append (h : e = .cr → t.head? ≠ some '\n') :
    ofText (e.text ++ t) = ⟨([], e) :: (ofText t).ended, (ofText t).last⟩ := by
  cases e with
  | crlf => rfl
  | lf => rfl
  | cr =>
    show ofText ('\r' :: t) = _
    rw [ofText]
    rintro s rfl
    exact h rfl rfl

theorem ofText_unbroken (h : ∀ c ∈ line, isLineBreak c = false) : ofText line = ⟨[], line⟩ := by
  induction line with
  | nil => rfl
  | cons c line ih =>
    rw [ofText_cons (h c (by simp)), ih fun d hd => h d (List.mem_cons_of_mem _ hd)]
    rfl

theorem ofText_line_append (hline : ∀ c ∈ line, isLineBreak c = false)
    (h : e = .cr → t.head? ≠ some '\n') :
    ofText (line ++ (e.text ++ t)) = ⟨(line, e) :: (ofText t).ended, (ofText t).last⟩ := by
  induction line with
  | nil => exact ofText_text_append h
  | cons c line ih =>
    rw [List.cons_append, ofText_cons (hline c (by simp)),
      ih fun d hd => hline d (List.mem_cons_of_mem _ hd)]
    rfl

theorem Cuts.ofText_eq (h : Cuts t ls) : ofText t = ls := by
  induction h with
  | last unbroken => exact ofText_unbroken unbroken
  | next unbroken whole rest ih => rw [ofText_line_append unbroken whole, ih]

theorem Cuts.ending_append (whole : e = .cr → t.head? ≠ some '\n') (rest : Cuts t ls) :
    Cuts (e.text ++ t) ⟨([], e) :: ls.ended, ls.last⟩ := @Cuts.next [] t e ls (by simp) whole rest

theorem Cuts.prepend {c : Char} (h : Cuts t ls) (hc : isLineBreak c = false) :
    Cuts (c :: t) (ls.prepend c) := by
  cases h with
  | last unbroken => exact .last (List.forall_mem_cons.mpr ⟨hc, unbroken⟩)
  | @next line t e ls unbroken whole rest =>
    exact @Cuts.next (c :: line) t e ls (List.forall_mem_cons.mpr ⟨hc, unbroken⟩) whole rest

theorem cuts_ofText (t : Text) : Cuts t (ofText t) := by
  induction t using endings_induction with
  | nil => exact .last (by simp)
  | crlf t ih => exact Cuts.ending_append (e := .crlf) (by simp) ih
  | lf t ih => exact Cuts.ending_append (e := .lf) (by simp) ih
  | cons c t hc ih => exact ofText_cons hc t ▸ ih.prepend hc
  | cr t hhead ih =>
    have hofText : ofText ('\r' :: t) = ⟨([], .cr) :: (ofText t).ended, (ofText t).last⟩ :=
      ofText_text_append (e := .cr) fun _ => hhead
    exact hofText ▸ Cuts.ending_append (e := .cr) (fun _ => hhead) ih

theorem Cuts.toText_eq (h : Cuts t ls) : ls.toText = t := by
  induction h with
  | last unbroken => rfl
  | next unbroken whole rest ih => simpa [toText] using ih

theorem Cuts.unbroken (h : Cuts t ls) : ∀ line ∈ ls.contents, ∀ c ∈ line, isLineBreak c = false := by
  induction h with
  | last unbroken => simpa [contents] using unbroken
  | next unbroken whole rest ih => exact List.forall_mem_cons.mpr ⟨unbroken, ih⟩

/-! ## Lines with their endings -/

theorem whole_line_append (hline : ∀ c ∈ line, isLineBreak c = false)
    (h : e = .cr → t.head? ≠ some '\n') :
    (ofText (line ++ (e.text ++ t))).whole = (line ++ e.text) :: (ofText t).whole := by
  rw [ofText_line_append hline h]
  rfl

theorem Cuts.of_mem_whole (h : Cuts t ls) {l : Text} (hl : l ∈ ls.whole) :
    ∃ line, (∀ c ∈ line, isLineBreak c = false) ∧
      ((∃ e : LineEnding, l = line ++ e.text) ∨ l = line ∧ line ≠ []) := by
  induction h with
  | @last line unbroken =>
    obtain ⟨hne, rfl⟩ : line ≠ [] ∧ l = line := by simpa [whole] using hl
    exact ⟨l, unbroken, .inr ⟨rfl, hne⟩⟩
  | @next line t e ls unbroken _ rest ih =>
    rcases List.mem_cons.mp (show l ∈ (line ++ e.text) :: ls.whole from hl) with rfl | hl
    · exact ⟨line, unbroken, .inl ⟨e, rfl⟩⟩
    · exact ih hl

end Masthead.Lines
