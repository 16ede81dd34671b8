import Masthead.Proofs.EndingCount
import Masthead.Proofs.Lines
import Masthead.Proofs.Path
import Masthead.Proofs.Replacing

/-!
# What a line ending is

The next line ending of a text can be searched for, the endings can be counted, and they can be
replaced. All three cut a text into the same lines: the search, repeated from where it stopped,
finds the ending of every line and then nothing, the dominant ending is the most frequent one of
the lines, and replacing the endings joins the lines.
-/
namespace Masthead
open Text

/-! ## The search -/

namespace LineEnd

variable {start stop position : Nat} {s line t : Text} {e : LineEnding} {found : LineEnd}

theorem firstIn_cons {c : Char} (h : position < start ∨ isLineBreak c = false) :
    firstIn start stop position (c :: t) = firstIn start stop (position + c.utf8Size) t := by
  rw [firstIn, if_pos]
  rcases h with h | h <;> simp [h]

theorem firstIn_before (h : position + s.bytes ≤ start) :
    firstIn start stop position (s ++ t) = firstIn start stop (position + s.bytes) t := by
  induction s generalizing position with
  | nil => rfl
  | cons c s ih =>
    rw [bytes_cons] at h ⊢
    have hc := c.utf8Size_pos
    rw [List.cons_append, firstIn_cons (.inl (by omega)), ih (by omega), Nat.add_assoc]

theorem firstIn_unbroken (h : ∀ c ∈ line, isLineBreak c = false) :
    firstIn start stop position (line ++ t) = firstIn start stop (position + line.bytes) t := by
  induction line generalizing position with
  | nil => rfl
  | cons c line ih =>
    rw [List.cons_append, firstIn_cons (.inr (h c (by simp))),
      ih fun d hd => h d (List.mem_cons_of_mem _ hd), bytes_cons, Nat.add_assoc]

theorem firstIn_text (hstart : start ≤ position) (hstop : position + (e.text ++ t).bytes ≤ stop)
    (h : e = .cr → t.head? ≠ some '\n') :
    firstIn start stop position (e.text ++ t) = some ⟨position, e⟩ := by
  have hcr : '\r'.utf8Size = 1 := rfl
  have hlf : '\n'.utf8Size = 1 := rfl
  cases e with
  | crlf =>
    simp only [LineEnding.text, List.cons_append, List.nil_append, bytes_cons, hcr, hlf] at hstop ⊢
    rw [firstIn, if_neg (by simp [isLineBreak]; omega), if_neg (by decide), if_pos]
    simp
    omega
  | lf =>
    simp only [LineEnding.text, List.cons_append, List.nil_append, bytes_cons, hlf] at hstop ⊢
    rw [firstIn, if_neg (by simp [isLineBreak]; omega), if_pos rfl]
  | cr =>
    simp only [LineEnding.text, List.cons_append, List.nil_append, bytes_cons, hcr] at hstop ⊢
    rw [firstIn, if_neg (by simp [isLineBreak]; omega), if_neg (by decide), if_neg]
    simpa using fun _ => h rfl

theorem of_firstIn_eq_some (h : firstIn start stop position t = some found) :
    start ≤ found.index ∧ position ≤ found.index ∧ found.stop ≤ position + t.bytes := by
  induction t generalizing position with
  | nil => simp [firstIn] at h
  | cons c t ih =>
    have hc := c.utf8Size_pos
    rw [firstIn] at h
    rw [bytes_cons]
    split at h
    · have := ih h
      omega
    · rename_i hhere
      have hstart : start ≤ position := by
        simp only [Bool.or_eq_true, decide_eq_true_eq, not_or, not_lt] at hhere
        exact hhere.1.1
      split at h
      · cases h
        refine ⟨hstart, le_rfl, ?_⟩
        show position + 1 ≤ _
        omega
      · split at h
        · rename_i hpair
          cases h
          obtain ⟨rest, rfl⟩ : ∃ rest, t = '\n' :: rest :=
            List.head?_eq_some_iff.mp (by simpa using (Bool.and_eq_true_iff.mp hpair).2)
          have hlf := ('\n').utf8Size_pos
          refine ⟨hstart, le_rfl, ?_⟩
          show position + 2 ≤ _
          rw [bytes_cons]
          omega
        · cases h
          refine ⟨hstart, le_rfl, ?_⟩
          show position + 1 ≤ _
          omega

theorem of_next?_eq_some (h : next? t start none = some found) :
    start ≤ found.index ∧ found.stop ≤ t.bytes := by
  obtain ⟨hstart, -, hstop⟩ := of_firstIn_eq_some h
  exact ⟨hstart, by omega⟩

theorem index_lt_stop (found : LineEnd) : found.index < found.stop := by
  obtain ⟨index, e⟩ := found
  have hpos : 0 < e.text.bytes := by cases e <;> decide
  exact Nat.lt_add_of_pos_right hpos

/-- What is found from byte `start` on when every search begins where the last one stopped. -/
def foundFrom (t : Text) (start : Nat) : List LineEnd :=
  match _h : next? t start none with
  | none => []
  | some found => found :: foundFrom t found.stop
termination_by t.bytes - start
decreasing_by
  have := of_next?_eq_some _h
  have := found.index_lt_stop
  omega

theorem foundFrom_of_none (h : next? t start none = none) : foundFrom t start = [] := by
  rw [foundFrom]
  split
  · rfl
  · rename_i heq
    rw [h] at heq
    cases heq

theorem foundFrom_of_some (h : next? t start none = some found) :
    foundFrom t start = found :: foundFrom t found.stop := by
  rw [foundFrom]
  split
  · rename_i heq
    rw [h] at heq
    cases heq
  · rename_i other heq
    obtain rfl : found = other := Option.some.inj (h.symm.trans heq)
    rfl

/-- The endings of lines that follow each other from a byte on. -/
def ends (position : Nat) : List (Text × LineEnding) → List LineEnd
  | [] => []
  | (line, e) :: rest =>
    ⟨position + line.bytes, e⟩ :: ends (position + line.bytes + e.text.bytes) rest

theorem foundFrom_append {ls : Lines} (h : Lines.Cuts t ls) (front : Text) :
    foundFrom (front ++ t) front.bytes = ends front.bytes ls.ended := by
  induction h generalizing front with
  | @last line unbroken =>
    refine foundFrom_of_none ?_
    rw [next?, firstIn_before (by simp), ← List.append_nil line, firstIn_unbroken unbroken]
    rfl
  | @next line t e ls unbroken whole rest ih =>
    have hfound : next? (front ++ (line ++ (e.text ++ t))) front.bytes none =
        some ⟨front.bytes + line.bytes, e⟩ := by
      rw [next?, firstIn_before (by simp), Nat.zero_add, firstIn_unbroken unbroken,
        firstIn_text (Nat.le_add_right _ _) (by simp only [bytes_append]; omega) whole]
    have hrest := ih (front ++ line ++ e.text)
    rw [foundFrom_of_some hfound, ends]
    simpa [stop, Nat.add_assoc] using hrest

end LineEnd

/-! ## The lines -/

namespace LineEnding

variable {t : Text} {ls : Lines}

/-- Repeated from the start of the text, the search finds the endings of its lines. -/
theorem foundFrom_zero (h : Lines.Cuts t ls) : LineEnd.foundFrom t 0 = LineEnd.ends 0 ls.ended :=
  LineEnd.foundFrom_append h []

theorem endings_of_cuts (h : Lines.Cuts t ls) : endings t = ls.ended.map (·.2) := by
  rw [endings, h.ofText_eq]

/-- The most frequent ending of the lines dominates, and a text of one line has line feeds. -/
theorem leads_dominant (h : Lines.Cuts t ls) :
    if ls.ended = [] then dominant t = lf else (dominant t).Leads (ls.ended.map (·.2)) := by
  have hendings := endings_of_cuts h
  split
  · rename_i hnone
    exact dominant_of_endings_eq_nil (by rw [hendings, hnone, List.map_nil])
  · rename_i hsome
    rw [← hendings, ← dominant_eq_iff]
    rw [hendings]
    exact mt List.map_eq_nil_iff.mp hsome

/-- What the dominant ending is chosen from are the counts of the characters and of the pairs; there
are never more pairs than there are of either character. -/
theorem tally_eq_sub (t : Text) :
    let pairs := occurrences crlf.text crlf.text_ne_nil t
    pairs ≤ t.count '\n' ∧ pairs ≤ t.count '\r' ∧
      tally t = (pairs, t.count '\n' - pairs, t.count '\r' - pairs) := by
  obtain ⟨hpairs, hlf, hcr⟩ := count_eq_tally_add t
  dsimp only
  rw [hpairs, hlf, hcr, Nat.add_sub_cancel, Nat.add_sub_cancel]
  exact ⟨by omega, by omega, rfl⟩

theorem replaceAll_eq_join (h : Lines.Cuts t ls) (new : Text) :
    replaceAll new t = join new ls.contents := by
  induction h with
  | @last line unbroken =>
    have hline := replaceAll_unbroken_append unbroken new []
    simpa [replaceAll, join, Lines.contents] using hline
  | @next line t e ls unbroken whole rest ih =>
    rw [replaceAll_unbroken_append unbroken, replaceAll_ending_append whole, ih]
    obtain ⟨second, others, hcontents⟩ : ∃ second others, ls.contents = second :: others :=
      List.exists_cons_of_ne_nil (by simp [Lines.contents])
    have hnext : Lines.contents ⟨(line, e) :: ls.ended, ls.last⟩ = line :: second :: others := by
      rw [← hcontents]
      rfl
    rw [hnext, join_cons_cons, hcontents, List.append_assoc]

/-- Every text is cut into lines that the search for line endings, their count and their replacement
agree on. The search, repeated from where it stopped, finds the endings of the lines and comes to an
end; the dominant ending, chosen from the counts of pairs and of what they leave of each character,
is the most frequent ending of the lines, a pair rather than a line feed and that rather than a
carriage return; and replacing the endings, pairs first, joins the lines by any text. -/
theorem exists_lines (t : Text) : ∃ ls : Lines,
    ls.toText = t ∧ (∀ line ∈ ls.contents, ∀ c ∈ line, isLineBreak c = false) ∧
    LineEnd.foundFrom t 0 = LineEnd.ends 0 ls.ended ∧
    (if ls.ended = [] then dominant t = lf else (dominant t).Leads (ls.ended.map (·.2))) ∧
    (let pairs := occurrences crlf.text crlf.text_ne_nil t
     pairs ≤ t.count '\n' ∧ pairs ≤ t.count '\r' ∧
       tally t = (pairs, t.count '\n' - pairs, t.count '\r' - pairs)) ∧
    ∀ new, replaceAll new t = join new ls.contents ∧
      replaceAll new t =
        replace ['\n'] new (replace ['\r'] ['\n'] (replace crlf.text ['\n'] t)) := by
  have hcuts := Lines.cuts_ofText t
  exact ⟨Lines.ofText t, hcuts.toText_eq, hcuts.unbroken, foundFrom_zero hcuts,
    leads_dominant hcuts, tally_eq_sub t,
    fun new => ⟨replaceAll_eq_join hcuts new, replaceAll_eq_replace new t⟩⟩

/-- The second of two carriage returns takes the line feed behind it. -/
example : LineEnd.foundFrom "\r\r\n\n".toList 0 = [⟨0, .cr⟩, ⟨1, .crlf⟩, ⟨3, .lf⟩] :=
  foundFrom_zero (Lines.cuts_ofText _)

end LineEnding
end Masthead
