import Masthead.Proofs.Comment.Complete
import Masthead.Proofs.Respelling

namespace Masthead.Comment
open Text

/-- The closing token of a block comment holds no blank. -/
def Grammar.ClosesPlainly (g : Grammar) : Prop :=
  ∀ pair ∈ g.block, ∀ c ∈ pair.2.text, isBlank c = false

theorem Grammar.ClosesPlainly.closesInLine {g : Grammar} (hg : g.ClosesPlainly) : g.ClosesInLine :=
  fun pair hpair c hc => isLineBreak_eq_false_of_isBlank_eq_false (hg pair hpair c hc)

theorem missing_add_count {breaks missing : Nat} {blanks : Text} (hcr : '\r' ∉ blanks)
    (h : takeBlanks breaks blanks = (blanks, [], missing)) :
    missing + blanks.count '\n' = breaks := by
  fun_induction takeBlanks breaks blanks generalizing missing with
  | case1 blanks =>
    obtain ⟨rfl, rfl⟩ : blanks = [] ∧ 0 = missing := by simpa using h
    rfl
  | case2 breaks =>
    obtain rfl : breaks + 1 = missing := by simpa using h
    rfl
  | case3 => simp at hcr
  | case4 breaks c blanks hne hb read rest missing' heq ih =>
    obtain ⟨rfl, rfl, rfl⟩ : read = blanks ∧ rest = [] ∧ missing' = missing := by simpa using h
    have hrest := ih (fun hm => hcr (List.mem_cons_of_mem _ hm)) heq
    rcases LineEnding.eq_lf_or_isLineBreak_eq_false hcr with rfl | hc
    · simp only [isLineBreak, beq_self_eq_true, Bool.or_true, if_true] at hrest
      rw [List.count_cons_self]
      omega
    · rw [hc] at hrest
      have hlf : c ≠ '\n' := by
        rintro rfl
        simp [isLineBreak] at hc
      simpa [List.count_cons_of_ne hlf] using hrest
  | case5 => simp at h

theorem isAllBlank_behind_lf {g : Grammar} (hg : g.ClosesPlainly) {t rest reach tail : Text}
    {item : Item} (h : g.readItem t = .item item rest) (hitem : item.text = reach ++ '\n' :: tail) :
    tail.isAllBlank = false := by
  rcases item_unbroken_or_closed h with hline | ⟨pair, hpair, front, hfront⟩
  · simpa [isLineBreak] using hline '\n' (by simp [hitem])
  · obtain ⟨c, hc⟩ := List.getLast?_isSome.mpr pair.2.ne_nil |> Option.isSome_iff_exists.mp
    have hlast : ('\n' :: tail).getLast? = some c := by
      rw [← hc, ← List.getLast?_append_of_ne_nil front pair.2.ne_nil, hfront, hitem,
        List.getLast?_append_of_ne_nil _ (by simp)]
    cases hb : tail.isAllBlank with
    | false => rfl
    | true =>
      have hblank : isBlank c := by
        rcases List.mem_cons.mp (List.mem_of_getLast? hlast) with rfl | hm
        · rfl
        · exact isAllBlank_iff.mp hb c hm
      simp [hg pair hpair c (List.mem_of_getLast? hc)] at hblank

namespace CompleteScan

variable {g : Grammar} {pieces : List Piece} {t front last blanks : Text}

theorem isAllBlank_behind_lf (hg : g.ClosesPlainly) (h : CompleteScan g t pieces blanks)
    {above tail : Text} (hp : piecesText pieces = above ++ ['\n'] ++ tail) :
    tail.isAllBlank = false := by
  obtain ⟨reach, item, hpieces, hblank, hitem⟩ := h.exists_last_item
  rw [hpieces] at hp
  rcases List.append_eq_append_iff.mp hp with ⟨behind, hreach, hi⟩ | ⟨behind, -, ht⟩
  · rcases List.eq_nil_or_concat' behind with rfl | ⟨behind, c, rfl⟩
    · rwa [← show item.text = tail from hi]
    · rw [← List.append_assoc] at hreach
      obtain rfl : '\n' = c := by simpa using (List.append_inj' hreach rfl).2
      have hbehind : item.text = behind ++ '\n' :: tail := by simp [hi]
      exact Comment.isAllBlank_behind_lf hg hitem hbehind
  · simp [ht, hblank]

/-- The last item of a complete comment ends above the last line exactly if that line is blank. -/
theorem lf_mem_blanks_iff (hg : g.ClosesPlainly)
    (h : CompleteScan g (front ++ last ++ ['\n']) pieces (blanks ++ ['\n']))
    (hfront : front = [] ∨ front.getLast? = some '\n')
    (hlast : ∀ c ∈ last, isLineBreak c = false) (hne : (front ++ last).isAllBlank = false) :
    '\n' ∈ blanks ↔ last.isAllBlank := by
  have hblank : blanks.isAllBlank := by simpa [isBlank] using h.isAllBlank
  have htext : front ++ last = piecesText pieces ++ blanks := by
    have := h.text
    rw [← List.append_assoc] at this
    exact List.append_cancel_right this
  constructor
  · intro hm
    rcases List.append_eq_append_iff.mp htext with ⟨tail, -, hl⟩ | ⟨tail, -, hb⟩
    · have := hlast _ (by rw [hl]; exact List.mem_append_right _ hm)
      simp [isLineBreak] at this
    · rw [hb, isAllBlank_append, Bool.and_eq_true] at hblank
      exact hblank.2
  · intro hb
    have hbreak : front.getLast? = some '\n' := by
      refine hfront.resolve_left ?_
      rintro rfl
      simp [hb] at hne
    obtain ⟨above, rfl⟩ := List.getLast?_eq_some_iff.mp hbreak
    rcases List.append_eq_append_iff.mp htext with ⟨tail, hp, hl⟩ | ⟨tail, hf, rfl⟩
    · rw [hl, isAllBlank_append, h.isAllBlank_behind_lf hg hp] at hb
      simp at hb
    · have htail : tail ≠ [] := by
        rintro rfl
        have hp : piecesText pieces = above ++ ['\n'] ++ [] := by rw [List.append_nil, hf]; simp
        simpa using h.isAllBlank_behind_lf hg hp
      rw [hf, List.getLast?_append_of_ne_nil _ htail] at hbreak
      exact List.mem_append_left _ (List.mem_of_getLast? hbreak)

end CompleteScan

end Masthead.Comment
