import Masthead.Proofs.Comment.Completeness

namespace Masthead
open Text

namespace LineEnding

variable {e : LineEnding} {es more : List LineEnding} {s t : Text}

/-- Of equally frequent endings the one of the lowest rank dominates. -/
def rank : LineEnding → Nat
  | crlf => 0
  | lf => 1
  | cr => 2

/-- Every other ending is less frequent, or as frequent and of a higher rank. -/
def Leads (e : LineEnding) (es : List LineEnding) : Prop :=
  ∀ e', e' ≠ e → es.count e' < es.count e ∨ es.count e' = es.count e ∧ e.rank < e'.rank

theorem forall_iff {p : LineEnding → Prop} : (∀ e, p e) ↔ p crlf ∧ p lf ∧ p cr :=
  ⟨fun h => ⟨h crlf, h lf, h cr⟩, fun h e => by cases e <;> simp [h]⟩

instance : Decidable (e.Leads es) := decidable_of_iff' _ forall_iff

theorem dominant_eq_iff (hne : endings t ≠ []) : dominant t = e ↔ e.Leads (endings t) := by
  have hsome : ¬ ((endings t).count crlf = 0 ∧ (endings t).count lf = 0 ∧
      (endings t).count cr = 0) := by
    obtain ⟨e', he'⟩ := List.exists_mem_of_ne_nil _ hne
    have hpos := List.count_pos_iff.mpr he'
    cases e' <;> omega
  rw [dominant_eq, tally_eq_count]
  dsimp only
  rw [if_neg hsome, Leads, forall_iff]
  cases e <;> simp only [rank, ne_eq, not_true_eq_false, reduceCtorEq, not_false_eq_true,
    false_implies, true_implies, true_and, and_true] <;> split_ifs <;> simp <;> omega

example : crlf.Leads (endings "a\nb\r\n".toList) := by decide

/-- The leading ending still leads where it has become no rarer and no other more frequent. -/
theorem Leads.mono (h : e.Leads es) (hsame : es.count e ≤ more.count e)
    (hother : ∀ e', e' ≠ e → more.count e' ≤ es.count e') : e.Leads more := by
  intro e' he'
  have hlead := h e' he'
  have hless := hother e' he'
  omega

theorem endings_append (h : ¬ CutsPair s t) : endings (s ++ t) = endings s ++ endings t := by
  induction s using endings_induction with
  | nil => rfl
  | crlf s ih => simp [ih (not_cutsPair_cons (not_cutsPair_cons h))]
  | lf s ih => simp [ih (not_cutsPair_cons h)]
  | cons c s hc ih =>
    rw [List.cons_append, endings_cons hc, endings_cons hc, ih (not_cutsPair_cons h)]
  | cr s hhead ih =>
    have hmore : (s ++ t).head? ≠ some '\n' := by
      cases s with
      | nil => exact fun hlf => h ⟨rfl, hlf⟩
      | cons => simpa using hhead
    rw [List.cons_append, endings_cr_cons hmore, endings_cr_cons hhead,
      ih (not_cutsPair_cons h), List.cons_append]

theorem cutsPair_text_iff : CutsPair e.text t ↔ e = cr ∧ t.head? = some '\n' := by
  cases e <;> simp [CutsPair, LineEnding.text]

theorem endings_text_append (h : ¬ (e = cr ∧ t.head? = some '\n')) :
    endings (e.text ++ t) = e :: endings t := by
  rw [endings_append (mt cutsPair_text_iff.mp h), endings_text, List.singleton_append]

end LineEnding

namespace Comment

variable {g : Grammar} {p q : Place} {t comment rest : Text}

theorem not_cutsPair_takeBlanks (breaks : Nat) (t : Text) :
    ¬ CutsPair (takeBlanks breaks t).1 (takeBlanks breaks t).2.1 := by
  fun_induction takeBlanks breaks t with
  | case1 => simp [CutsPair]
  | case2 => simp [CutsPair]
  | case3 breaks t blanks rest missing heq ih =>
    rw [heq] at ih
    rintro ⟨hblanks, hrest⟩
    cases blanks with
    | nil => simp at hblanks
    | cons => exact ih ⟨by simpa using hblanks, hrest⟩
  | case4 breaks c t hne hblank blanks rest missing heq ih =>
    have htext := takeBlanks_append (if isLineBreak c then breaks else breaks + 1) t
    rw [heq] at ih htext
    rintro ⟨hblanks, hrest⟩
    cases blanks with
    | nil =>
      obtain ⟨rest, rfl⟩ := List.head?_eq_some_iff.mp hrest
      exact hne _ (by simpa using hblanks) htext.symm
    | cons => exact ih ⟨by simpa using hblanks, hrest⟩
  | case5 => simp [CutsPair]

theorem head?_ne_lf_of_core (h : t.trimStart = t) : t.head? ≠ some '\n' := by
  have hcut : ¬ CutsPair ['\r'] t := not_cutsPair_core h
  exact fun hlf => hcut ⟨rfl, hlf⟩

theorem not_cutsPair_dropIndent {core : Text} (hcore : core.head? ≠ some '\n')
    (h : t ++ core = dropIndent t ++ rest) : ¬ CutsPair (dropIndent t) rest := by
  obtain ⟨indent, ht, hindent⟩ := exists_eq_dropIndent_append t
  have hrest : dropIndent t ++ (indent ++ core) = dropIndent t ++ rest := by
    rw [← List.append_assoc, ← ht, h]
  obtain rfl := List.append_cancel_left hrest
  rintro ⟨-, hlf⟩
  cases indent with
  | nil => exact hcore hlf
  | cons c indent =>
    have hc := isLineBreak_eq_false_of_isIndent (hindent c (by simp))
    obtain rfl : c = '\n' := by simpa using hlf
    simp [isLineBreak] at hc

theorem Scan.not_cutsPair_found {s : Scan} (hsteps : Steps g p s.pieces q)
    (hhalt : Halts g q s.blanks s.stop) {n : Nat} (h : p.text = s.found n ++ rest) :
    ¬ CutsPair (s.found n) rest := by
  have ht := hsteps.text
  cases hdrop : s.pieces.drop n with
  | nil =>
    rw [Scan.found_of_length_le (List.drop_eq_nil_iff.mp hdrop)] at h ⊢
    cases hstop : s.stop with
    | endOfText =>
      rw [hstop] at hhalt
      obtain rfl : rest = [] := by simpa [ht, hhalt.1, Scan.text, hstop] using h
      simp [CutsPair]
    | blankLine =>
      rw [hstop] at hhalt
      obtain ⟨-, rest', hread⟩ := hhalt
      have hcut := not_cutsPair_takeBlanks 2 q.text
      have hq := takeBlanks_append 2 q.text
      obtain ⟨c, hc, -⟩ := takeBlanks_getLast? two_ne_zero (congrArg (·.2.2) hread)
      rw [hread] at hcut hq hc
      obtain rfl : rest' = rest := by simpa [ht, ← hq, Scan.text, hstop] using h
      have hne : s.blanks ≠ [] := by
        rintro hnil
        simp [hnil] at hc
      rwa [if_neg (by simp), Scan.text, CutsPair, List.getLast?_append_of_ne_nil _ hne]
    | otherText =>
      rw [hstop] at hhalt
      obtain ⟨front, hfront, -, -, hcore, -⟩ := hhalt
      rw [if_pos hstop] at h
      rw [if_pos rfl]
      refine not_cutsPair_dropIndent (head?_ne_lf_of_core hcore) ?_
      rw [← h, ht, hfront, Scan.text, List.append_assoc]
  | cons opening more =>
    rw [Scan.found_of_drop hdrop] at h ⊢
    obtain ⟨q', -, hlast⟩ := Steps.split (List.take_append_drop n s.pieces ▸ hsteps)
    rw [hdrop] at hlast
    cases hlast with
    | cons step steps =>
      refine not_cutsPair_dropIndent (head?_ne_lf_of_core step.core.1) ?_
      rw [← h, ht, piecesText_of_drop hdrop, steps.text]
      simp [Piece.text]

theorem not_cutsPair_of_leading (h : g.leading t = .ok comment) (ht : t = comment ++ rest) :
    ¬ CutsPair comment rest := by
  obtain ⟨s, q, hsteps, hhalt, rfl⟩ := leading_eq_ok_iff.mp h
  obtain ⟨n, hn⟩ := exists_closedCount?_zero s.pieces
  rw [Scan.leading_eq hsteps hn] at ht ⊢
  by_cases h0 : n = 0
  · simp [h0, CutsPair]
  · rw [if_neg h0] at ht ⊢
    exact Scan.not_cutsPair_found hsteps hhalt ht

end Comment
end Masthead
