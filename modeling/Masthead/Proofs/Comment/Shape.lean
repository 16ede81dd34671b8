import Masthead.Proofs.DominantEnding
import Masthead.Proofs.Comment.Complete

namespace Masthead
open Text

namespace Text

section Cut

variable {p : Char → Bool} {s t : Text}

theorem takeWhile_append_of_head? (hs : ∀ c ∈ s, p c) (ht : ∀ c ∈ t.head?, p c = false) :
    (s ++ t).takeWhile p = s := by
  rw [List.takeWhile_append_of_pos hs]
  cases t with
  | nil => simp
  | cons c t => simp [ht c rfl]

theorem dropWhile_append_of_head? (hs : ∀ c ∈ s, p c) (ht : ∀ c ∈ t.head?, p c = false) :
    (s ++ t).dropWhile p = t := by
  rw [List.dropWhile_append_of_pos hs]
  cases t with
  | nil => rfl
  | cons c t => simp [ht c rfl]

theorem head?_dropWhile (p : Char → Bool) (t : Text) : ∀ c ∈ (t.dropWhile p).head?, p c = false := by
  intro c hc
  have := List.head?_dropWhile_not p t
  rwa [Option.mem_def.mp hc] at this

end Cut

theorem isBlank_of_mem_firstWord {c : Char} {t : Text} (h : c ∈ t.firstWord) : isBlank c = false := by
  simpa using List.mem_takeWhile_imp h

theorem firstWord_isPrefix (t : Text) : t.firstWord <+: t := List.takeWhile_prefix _

theorem firstWord_firstLine (t : Text) : t.firstLine.firstWord = t.firstWord := by
  have hand : (fun c => !isBlank c && !isLineBreak c) = (!isBlank ·) := by
    funext c
    cases hc : isBlank c with
    | true => rfl
    | false => simp [isLineBreak_eq_false_of_isBlank_eq_false hc]
  rw [firstWord, firstLine, List.takeWhile_takeWhile]
  simp only [Bool.decide_and, Bool.decide_eq_true, hand, firstWord]

theorem eq_false_of_not_any {p : Char → Bool} {t : Text} (h : t.any p = false) :
    ∀ c ∈ t, p c = false := by simpa using h

theorem length_le_of_occurrence {needle t before rest front back : Text}
    (h : splitAtFirst? needle t = some (before, rest)) (ht : t = front ++ needle ++ back) :
    before.length ≤ front.length := by
  induction t generalizing before front with
  | nil =>
    simp only [splitAtFirst?] at h
    split at h
    · simp only [Option.some.injEq, Prod.mk.injEq] at h
      simp [← h.1]
    · simp at h
  | cons c t ih =>
    simp only [splitAtFirst?] at h
    split at h
    · simp only [Option.some.injEq, Prod.mk.injEq] at h
      simp [← h.1]
    · rename_i hnone
      obtain ⟨before, hbefore, rfl⟩ : ∃ b, splitAtFirst? needle t = some (b, rest) ∧ c :: b = before := by
        simpa using h
      cases front with
      | nil => simp [isPrefixOf?_eq_some_iff.mpr (show c :: t = needle ++ back from ht)] at hnone
      | cons d front =>
        have := ih hbefore (List.cons.inj ht).2
        simp only [List.length_cons]
        omega

theorem eq_nil_of_occurrence {needle inner rest before after : Text}
    (h : splitAtFirst? needle (inner ++ needle ++ rest) = some (inner, rest))
    (hocc : inner ++ needle = before ++ needle ++ after) : after = [] := by
  have htext : inner ++ needle ++ rest = before ++ needle ++ (after ++ rest) := by
    rw [hocc, List.append_assoc]
  have hmin := length_le_of_occurrence h htext
  have hlen := congrArg List.length hocc
  simp only [List.length_append] at hlen
  exact List.length_eq_zero_iff.mp (by omega)

end Text

namespace LineEnding

theorem head?_takeBlanks (breaks : Nat) {t : Text} (h : t.head? ≠ some '\n') :
    (Comment.takeBlanks breaks t).1.head? ≠ some '\n' := by
  have happend := Comment.takeBlanks_append breaks t
  cases hread : (Comment.takeBlanks breaks t).1 with
  | nil => simp
  | cons c read =>
    rw [hread] at happend
    rw [← happend] at h
    exact h

theorem missing_add_endings (breaks : Nat) (t : Text) :
    (Comment.takeBlanks breaks t).2.2 + (endings (Comment.takeBlanks breaks t).1).length = breaks := by
  fun_induction Comment.takeBlanks breaks t with
  | case1 => rfl
  | case2 => rfl
  | case3 breaks t blanks rest missing heq ih =>
    rw [heq] at ih
    simp only [endings_crlf_cons, List.length_cons] at ih ⊢
    omega
  | case4 breaks c t hne hb blanks rest missing heq ih =>
    rw [heq] at ih
    simp only at ih ⊢
    cases hc : isLineBreak c with
    | false =>
      simp only [hc, Bool.false_eq_true, if_false] at ih
      rw [endings_cons hc]
      exact ih
    | true =>
      simp only [hc, if_true] at ih
      rcases eq_cr_or_eq_lf hc with rfl | rfl
      · have hhead : t.head? ≠ some '\n' := by
          intro hlf
          obtain ⟨s, rfl⟩ := List.head?_eq_some_iff.mp hlf
          exact hne s rfl rfl
        have hread : blanks.head? ≠ some '\n' := by
          have := head?_takeBlanks breaks hhead
          rwa [show Comment.takeBlanks breaks t = (blanks, rest, missing) from heq] at this
        rw [endings_cr_cons hread, List.length_cons]
        omega
      · rw [endings_lf_cons, List.length_cons]
        omega
  | case5 => rfl

end LineEnding

namespace Comment
open LineEnding

/-- A text fills its line: no line break is in it, and only a line break can come next. -/
def FillsLine (t behind : Text) : Prop :=
  (∀ c ∈ t, isLineBreak c = false) ∧ ∀ c ∈ behind.head?, isLineBreak c

/-- A text starts with a token as a word of its own, or with two words that spell it, with spaces and
tabs between them. -/
def Token.IsSpelledBy (token : Token) (t : Text) : Prop :=
  t.firstWord = token.text ∨
    ∃ first gap second behind, t = first ++ gap ++ second ++ behind ∧
      first ≠ [] ∧ gap ≠ [] ∧ second ≠ [] ∧ (∀ c ∈ first ++ second, isBlank c = false) ∧
      (∀ c ∈ gap, c = ' ' ∨ c = '\t') ∧ (∀ c ∈ behind.head?, isBlank c) ∧
      first <+: token.text ∧ first ++ second = token.text.filter (!isBlank ·)

def Item.WrittenBefore (g : Grammar) (item : Item) (behind : Text) : Prop :=
  match item.kind with
  | .lineComment => (∃ token ∈ g.line, token.text <+: item.text) ∧ FillsLine item.text behind
  | .blockComment => ∃ opener closer inner, g.block = some (opener, closer) ∧
      item.text = opener.text ++ inner ++ closer.text ∧
      ∀ before after, inner ++ closer.text = before ++ closer.text ++ after → after = []
  | .regionStart =>
    (∃ token ∈ g.regionStart, item.text.firstWord = token.text) ∧ FillsLine item.text behind
  | .regionEnd =>
    (∃ token ∈ g.regionEnd, token.IsSpelledBy item.text) ∧ FillsLine item.text behind

theorem isBlank_of_space_or_tab {c : Char} (h : c = ' ' ∨ c = '\t') : isBlank c := by
  rcases h with rfl | rfl <;> rfl

theorem isLineBreak_of_space_or_tab {c : Char} (h : c = ' ' ∨ c = '\t') : isLineBreak c = false := by
  rcases h with rfl | rfl <;> rfl

theorem firstWord_append_of_head? {word behind : Text} (hw : ∀ c ∈ word, isBlank c = false)
    (hb : ∀ c ∈ behind.head?, isBlank c) : (word ++ behind).firstWord = word :=
  takeWhile_append_of_head? (by simpa using hw) (by simpa using hb)

theorem words_of_append {first gap second behind : Text} (hgap : gap ≠ [])
    (hwords : ∀ c ∈ first ++ second, isBlank c = false) (hspaces : ∀ c ∈ gap, c = ' ' ∨ c = '\t')
    (hbehind : ∀ c ∈ behind.head?, isBlank c) (hsecond : second ≠ []) :
    (first ++ gap ++ second ++ behind).firstWord = first ∧
      Grammar.secondWord (first ++ gap ++ second ++ behind) = second := by
  obtain ⟨d, gap', rfl⟩ := List.exists_cons_of_ne_nil hgap
  obtain ⟨e, second', rfl⟩ := List.exists_cons_of_ne_nil hsecond
  have hfirst : ∀ c ∈ first, isBlank c = false := fun c hc => hwords c (by simp [hc])
  have hd : isBlank d := isBlank_of_space_or_tab (hspaces d (by simp))
  have he : isBlank e = false := hwords e (by simp)
  have hne : ¬ (e = ' ' ∨ e = '\t') := by
    intro h
    simp [isBlank_of_space_or_tab h] at he
  simp only [List.append_assoc, List.cons_append]
  refine ⟨firstWord_append_of_head? hfirst (by simpa using hd), ?_⟩
  unfold Grammar.secondWord
  rw [dropWhile_append_of_head? (by simpa using hfirst) (by simpa using hd), ← List.cons_append,
    dropWhile_append_of_head? (by simpa using hspaces) (by simpa using hne), ← List.cons_append]
  exact firstWord_append_of_head? (fun c hc => hwords c (by simp at hc ⊢; tauto)) hbehind

theorem exists_gap {t : Text} (hsecond : Grammar.secondWord t ≠ []) :
    ∃ gap behind, t = t.firstWord ++ gap ++ Grammar.secondWord t ++ behind ∧ gap ≠ [] ∧
      (∀ c ∈ gap, c = ' ' ∨ c = '\t') ∧ ∀ c ∈ behind.head?, isBlank c := by
  obtain ⟨rest, hrest⟩ : ∃ rest : Text, rest = t.dropWhile (!isBlank ·) := ⟨_, rfl⟩
  obtain ⟨behind, hbehind⟩ :
      ∃ behind : Text, behind = rest.dropWhile fun c => c == ' ' || c == '\t' := ⟨_, rfl⟩
  have ht : t.firstWord ++ rest = t := hrest ▸ List.takeWhile_append_dropWhile
  have hgap : rest.takeWhile (fun c => c == ' ' || c == '\t') ++ behind = rest :=
    hbehind ▸ List.takeWhile_append_dropWhile
  have hword : Grammar.secondWord t = behind.firstWord := by rw [hbehind, hrest]; rfl
  have hlast : behind.firstWord ++ behind.dropWhile (!isBlank ·) = behind :=
    List.takeWhile_append_dropWhile
  refine ⟨rest.takeWhile fun c => c == ' ' || c == '\t', behind.dropWhile (!isBlank ·),
    ?_, ?_, ?_, ?_⟩
  · rw [List.append_assoc, hword, hlast, List.append_assoc, hgap, ht]
  · intro hnil
    rw [hnil, List.nil_append] at hgap
    rw [hword, hgap] at hsecond
    obtain ⟨c, word, hc⟩ := List.exists_cons_of_ne_nil hsecond
    have hplain : isBlank c = false :=
      isBlank_of_mem_firstWord (t := rest) (by rw [hc]; exact List.mem_cons_self)
    obtain ⟨more, hmore⟩ := firstWord_isPrefix rest
    have hhead : c ∈ (t.dropWhile (!isBlank ·)).head? := by rw [← hrest, ← hmore, hc]; rfl
    simpa [hplain] using head?_dropWhile _ t c hhead
  · intro c hc
    simpa using List.mem_takeWhile_imp hc
  · intro c hc
    simpa using head?_dropWhile _ behind c hc

theorem closesRegion_iff {g : Grammar} {t : Text} :
    g.closesRegion t ↔ ∃ token ∈ g.regionEnd, token.IsSpelledBy t := by
  simp only [Grammar.closesRegion, Option.any_eq_true, Bool.or_eq_true, beq_iff_eq]
  refine exists_congr fun token => and_congr_right fun _ => or_congr_right ?_
  simp only [Grammar.splitsRegionEnd, Bool.and_eq_true, bne_iff_ne, beq_iff_eq,
    List.isPrefixOf_iff_prefix]
  constructor
  · rintro ⟨⟨⟨hfirst, hprefix⟩, hsecond⟩, hspelled⟩
    obtain ⟨gap, behind, ht, hgap, hspaces, hbehind⟩ := exists_gap hsecond
    refine ⟨_, gap, _, behind, ht, hfirst, hgap, hsecond, ?_, hspaces, hbehind, hprefix, hspelled⟩
    intro c hc
    rcases List.mem_append.mp hc with hc | hc
    · exact isBlank_of_mem_firstWord hc
    · exact isBlank_of_mem_firstWord hc
  · rintro ⟨first, gap, second, behind, rfl, hfirst, hgap, hsecond, hwords, hspaces, hbehind,
      hprefix, hspelled⟩
    obtain ⟨h₁, h₂⟩ := words_of_append hgap hwords hspaces hbehind hsecond
    rw [h₁, h₂]
    exact ⟨⟨⟨hfirst, hprefix⟩, hsecond⟩, hspelled⟩

theorem fillsLine_firstLine (t : Text) : FillsLine t.firstLine (t.dropWhile (!isLineBreak ·)) := by
  constructor
  · intro c hc
    simpa using List.mem_takeWhile_imp hc
  · intro c hc
    simpa using head?_dropWhile _ t c hc

theorem firstLine_append_of_unbroken {s : Text} (h : ∀ c ∈ s, isLineBreak c = false) (t : Text) :
    (s ++ t).firstLine = s ++ t.firstLine :=
  List.takeWhile_append_of_pos (by simpa using h)

theorem isBlank_head?_firstLine {t : Text} (h : ∀ c ∈ t.head?, isBlank c) :
    ∀ c ∈ t.firstLine.head?, isBlank c := by
  cases t with
  | nil => simp [firstLine]
  | cons d t =>
    cases hd : isLineBreak d with
    | true => simp [firstLine, hd]
    | false => simpa [firstLine, hd] using h

theorem Token.IsSpelledBy.firstLine {token : Token} {t : Text} (h : token.IsSpelledBy t) :
    token.IsSpelledBy t.firstLine := by
  rcases h with hword | ⟨first, gap, second, behind, rfl, hfirst, hgap, hsecond, hwords, hspaces,
    hbehind, hspelled⟩
  · exact .inl ((firstWord_firstLine t).trans hword)
  · have hline : ∀ c ∈ first ++ gap ++ second, isLineBreak c = false := by
      intro c hc
      by_cases hword : c ∈ first ++ second
      · exact isLineBreak_eq_false_of_isBlank_eq_false (hwords c hword)
      · have hc : c ∈ gap := by
          simp only [List.mem_append] at hc hword
          tauto
        exact isLineBreak_of_space_or_tab (hspaces c hc)
    rw [firstLine_append_of_unbroken hline]
    exact .inr ⟨first, gap, second, behind.firstLine, rfl, hfirst, hgap, hsecond, hwords, hspaces,
      isBlank_head?_firstLine hbehind, hspelled⟩

theorem writtenBefore_of_readBlock {g : Grammar} {opener closer : Token} {t rest : Text}
    {item : Item} (hpair : g.blockAt? t.firstWord = some (opener, closer))
    (h : Grammar.readBlock opener closer t = .item item rest) : item.WrittenBefore g rest := by
  obtain ⟨hblock, hprefix⟩ := Option.filter_eq_some_iff.mp hpair
  have hopener : t.take opener.text.length = opener.text := by
    have hword : opener.text <+: t :=
      (List.isPrefixOf_iff_prefix.mp hprefix).trans (firstWord_isPrefix t)
    exact List.prefix_iff_eq_take.mp hword |>.symm
  obtain ⟨inner, hsplit, rfl⟩ := Grammar.readBlock_eq_item_iff.mp h
  refine ⟨opener, closer, inner, hblock, by rw [hopener], ?_⟩
  intro before more hocc
  rw [eq_of_splitAtFirst?_eq_some hsplit] at hsplit
  exact eq_nil_of_occurrence hsplit hocc

theorem writtenBefore_of_readItem {g : Grammar} {t rest : Text} {item : Item}
    (h : g.readItem t = .item item rest) : item.WrittenBefore g rest := by
  cases Grammar.readItem_eq_item_iff.mp h with
  | lineComment starts read =>
    obtain ⟨token, htoken, hprefix⟩ := (Option.any_eq_true ..).mp starts
    obtain ⟨rfl, rfl⟩ := Reading.item.inj read
    refine ⟨⟨token, htoken, ?_⟩, fillsLine_firstLine t⟩
    exact (List.isPrefixOf_iff_prefix.mp hprefix).trans
      (firstWord_firstLine t ▸ firstWord_isPrefix t.firstLine)
  | blockComment _ starts read => exact writtenBefore_of_readBlock starts read
  | regionStart _ _ opens read =>
    obtain ⟨token, htoken, hword⟩ := (Option.any_eq_true ..).mp opens
    obtain ⟨rfl, rfl⟩ := Reading.item.inj read
    refine ⟨⟨token, htoken, ?_⟩, fillsLine_firstLine t⟩
    exact (firstWord_firstLine t).trans (by simpa using hword)
  | regionEnd _ _ _ closes read =>
    obtain ⟨token, htoken, hspelled⟩ := closesRegion_iff.mp closes
    obtain ⟨rfl, rfl⟩ := Reading.item.inj read
    exact ⟨⟨token, htoken, hspelled.firstLine⟩, fillsLine_firstLine t⟩

end Comment

end Masthead
