import Masthead.Proofs.Comment.Soundness

/-!
# Comments that are found

A passage is a sequence of comments and regions, every item on lines of its own, with blank lines
inside of regions only. In front of text that starts with none of the grammar's tokens, a passage is
exactly the leading comment.
-/
namespace Masthead
open Text

namespace LineEnding

theorem length_endings_le_append (s t : Text) :
    (endings s).length ≤ (endings (s ++ t)).length := by
  induction s using endings_induction with
  | nil => simp
  | crlf s ih => simpa using ih
  | lf s ih => simpa using ih
  | cons c s hc ih => simpa [endings_cons hc] using ih
  | cr s hhead ih =>
    rw [endings_cr_cons hhead, List.cons_append]
    by_cases hmore : (s ++ t).head? = some '\n'
    · obtain rfl : s = [] := by
        cases s with
        | nil => rfl
        | cons => exact absurd (by simpa using hmore) hhead
      obtain ⟨t, rfl⟩ := List.head?_eq_some_iff.mp hmore
      simp
    · rw [endings_cr_cons hmore]
      simpa using ih

@[simp] theorem endings_text (e : LineEnding) : endings e.text = [e] := by cases e <;> rfl

theorem isLineBreak_head?_text_append (e : LineEnding) (t : Text) :
    ∀ c ∈ (e.text ++ t).head?, isLineBreak c := by
  cases e <;> simp [LineEnding.text, isLineBreak]

end LineEnding

/-! ## Words -/

section Words
open Comment

/-- Some characters without a blank. -/
def IsWord (t : Text) : Prop := t ≠ [] ∧ ∀ c ∈ t, isBlank c = false

instance : DecidablePred IsWord := fun t =>
  decidable_of_iff (t ≠ [] ∧ t.any isBlank = false) (by simp [IsWord])

theorem IsWord.unbroken_append {word more : Text} (h : IsWord word)
    (hmore : ∀ c ∈ more, isLineBreak c = false) : ∀ c ∈ word ++ more, isLineBreak c = false :=
  fun c hc => (List.mem_append.mp hc).elim
    (fun hc => isLineBreak_eq_false_of_isBlank_eq_false (h.2 c hc)) (hmore c)

/-- One word, or two words with spaces and tabs between them. -/
inductive OneOrTwoWords : Text → Prop
  | one {word : Text} (h : IsWord word) : OneOrTwoWords word
  | two {first gap second : Text} (hfirst : IsWord first) (hsecond : IsWord second) (hgap : gap ≠ [])
      (hindent : ∀ c ∈ gap, c = ' ' ∨ c = '\t') : OneOrTwoWords (first ++ gap ++ second)

theorem OneOrTwoWords.ne_nil {t : Text} (h : OneOrTwoWords t) : t ≠ [] := by
  cases h with
  | one h => exact h.1
  | two hfirst => simp [hfirst.1]

theorem OneOrTwoWords.unbroken {t : Text} (h : OneOrTwoWords t) : ∀ c ∈ t, isLineBreak c = false := by
  intro c hc
  cases h with
  | one h => exact isLineBreak_eq_false_of_isBlank_eq_false (h.2 c hc)
  | two hfirst hsecond _ hindent =>
    simp only [List.mem_append] at hc
    obtain (hc | hc) | hc := hc
    · exact isLineBreak_eq_false_of_isBlank_eq_false (hfirst.2 c hc)
    · exact isLineBreak_of_space_or_tab (hindent c hc)
    · exact isLineBreak_eq_false_of_isBlank_eq_false (hsecond.2 c hc)

end Words

namespace Comment
open LineEnding

theorem not_holdsBlankLine {blanks : Text} (h : (endings blanks).length ≤ 1) :
    ¬ HoldsBlankLine blanks := by
  intro hline
  have hcount := missing_add_endings 2 blanks
  have hle := length_endings_le_append (takeBlanks 2 blanks).1 (takeBlanks 2 blanks).2.1
  rw [takeBlanks_append] at hle
  rw [HoldsBlankLine] at hline
  omega

/-! ## Grammars -/

def Grammar.commentTokens (g : Grammar) : List Text :=
  g.line.toList.map (·.text) ++ g.block.toList.map (·.1.text)

def Token.IsOneOrTwoWords (token : Token) : Prop :=
  (∀ c ∈ token.text, isBlank c = false) ∨
    ∃ first gap second, token.text = first ++ gap ++ second ∧ first ≠ [] ∧ gap ≠ [] ∧ second ≠ [] ∧
      (∀ c ∈ first ++ second, isBlank c = false) ∧ ∀ c ∈ gap, c = ' '

theorem Token.IsOneOrTwoWords.oneOrTwoWords {token : Token} (h : token.IsOneOrTwoWords) :
    OneOrTwoWords token.text := by
  rcases h with hplain | ⟨first, gap, second, htext, hfirst, hgap, hsecond, hwords, hspaces⟩
  · exact .one ⟨token.ne_nil, hplain⟩
  · rw [List.forall_mem_append] at hwords
    rw [htext]
    exact .two ⟨hfirst, hwords.1⟩ ⟨hsecond, hwords.2⟩ hgap fun c hc => .inl (hspaces c hc)

/-- No token can be taken for another one. -/
structure Grammar.Distinct (g : Grammar) : Prop where
  plainComment : ∀ token ∈ g.commentTokens, ∀ c ∈ token, isBlank c = false
  plainStart : ∀ token ∈ g.regionStart, ∀ c ∈ token.text, isBlank c = false
  endWords : ∀ token ∈ g.regionEnd, token.IsOneOrTwoWords
  comment_start : ∀ token ∈ g.commentTokens, ∀ start ∈ g.regionStart, ¬ token <+: start.text
  comment_end : ∀ token ∈ g.commentTokens, ∀ stop ∈ g.regionEnd, ¬ token <+: stop.text.firstWord
  line_block : ∀ line ∈ g.line, ∀ pair ∈ g.block,
    ¬ line.text <+: pair.1.text ∧ ¬ pair.1.text <+: line.text
  start_end : ∀ start ∈ g.regionStart, ∀ stop ∈ g.regionEnd, start.text ≠ stop.text.firstWord

/-- A text starts with a word that no item starts with. -/
structure Grammar.Foreign (g : Grammar) (t : Text) : Prop where
  word : t.firstWord ≠ []
  comment : ∀ token ∈ g.commentTokens, ¬ token <+: t.firstWord
  start : ∀ token ∈ g.regionStart, t.firstWord ≠ token.text
  stop : ∀ token ∈ g.regionEnd, ¬ token.IsSpelledBy t

/-! ## Passages -/

/-- A comment without the line ending behind it. A block comment ends with the first closing token. -/
inductive CommentText (g : Grammar) : Text → Prop
  | line {token : Token} {more : Text} (member : token ∈ g.line)
      (unbroken : ∀ c ∈ more, isLineBreak c = false) : CommentText g (token.text ++ more)
  | block {opener closer : Token} {inner : Text} (member : (opener, closer) ∈ g.block)
      (first : ∀ before after, inner ++ closer.text = before ++ closer.text ++ after → after = []) :
      CommentText g (opener.text ++ inner ++ closer.text)

/-- Nothing, or a blank and further text in the same line. -/
def IsRemark (more : Text) : Prop :=
  (∀ c ∈ more.head?, isBlank c) ∧ ∀ c ∈ more, isLineBreak c = false

/-- Comments and regions, every line of which ends with `e`. Blank lines stand in regions only. -/
inductive Passage (g : Grammar) (e : LineEnding) : (inRegion : Bool) → Text → Prop
  | nil {inRegion : Bool} : Passage g e inRegion []
  | comment {inRegion : Bool} {indent item rest : Text} (indented : ∀ c ∈ indent, isIndent c)
      (written : CommentText g item) (others : Passage g e inRegion rest) :
      Passage g e inRegion (indent ++ item ++ e.text ++ rest)
  | region {inRegion : Bool} {start stop : Token} {indent indent' more more' inner rest : Text}
      (start_mem : start ∈ g.regionStart) (stop_mem : stop ∈ g.regionEnd)
      (indented : ∀ c ∈ indent ++ indent', isIndent c) (remark : IsRemark more)
      (remark' : IsRemark more') (inside : Passage g e true inner)
      (others : Passage g e inRegion rest) :
      Passage g e inRegion (indent ++ (start.text ++ more) ++ e.text ++ inner ++
        (indent' ++ (stop.text ++ more') ++ e.text) ++ rest)
  | blankLine {indent rest : Text} (indented : ∀ c ∈ indent, isIndent c)
      (others : Passage g e true rest) : Passage g e true (indent ++ e.text ++ rest)

/-! ## Reading the items -/

section Reading

variable {g : Grammar} {t word behind : Text}

theorem wholeLine_of_fillsLine (h : FillsLine t behind) (kind : ItemKind) :
    Reading.wholeLine kind (t ++ behind) = .item ⟨kind, t⟩ behind := by
  have hline : ∀ c ∈ t, (!isLineBreak c) = true := by simpa using h.1
  have hbehind : ∀ c ∈ behind.head?, (!isLineBreak c) = false := by simpa using h.2
  rw [Reading.wholeLine, firstLine, takeWhile_append_of_head? hline hbehind,
    dropWhile_append_of_head? hline hbehind]

theorem isPrefix_firstWord (hw : ∀ c ∈ word, isBlank c = false) (t : Text) :
    word <+: (word ++ t).firstWord := by
  rw [firstWord, List.takeWhile_append_of_pos (by simpa using hw)]
  exact List.prefix_append ..

theorem splitAtFirst?_of_occurrence {needle inner : Text}
    (first : ∀ before after, inner ++ needle = before ++ needle ++ after → after = []) :
    splitAtFirst? needle (inner ++ needle ++ behind) = some (inner, behind) := by
  obtain ⟨⟨before, rest⟩, hsplit⟩ : ∃ parts,
      splitAtFirst? needle (inner ++ needle ++ behind) = some parts := by
    rw [← Option.isSome_iff_exists]
    exact contains_eq_true_iff.mpr ⟨inner, behind, rfl⟩
  have heq := eq_of_splitAtFirst?_eq_some hsplit
  have hlen := length_le_of_occurrence hsplit rfl
  have hprefix : before ++ needle <+: inner ++ needle ++ behind := ⟨rest, heq.symm⟩
  obtain ⟨after, hafter⟩ : before ++ needle <+: inner ++ needle :=
    List.prefix_of_prefix_length_le hprefix (List.prefix_append ..) (by simpa using hlen)
  obtain rfl := first before after hafter.symm
  rw [List.append_nil] at hafter
  obtain rfl := List.append_cancel_right hafter
  rw [hsplit, List.append_cancel_left heq]

theorem mem_commentTokens :
    word ∈ g.commentTokens ↔
      (∃ token ∈ g.line, token.text = word) ∨ ∃ pair ∈ g.block, pair.1.text = word := by
  simp [Grammar.commentTokens]

theorem readItem_of_no_comment (h : ∀ token ∈ g.commentTokens, ¬ token <+: t.firstWord) :
    g.readItem t =
      if g.opensRegion t then .wholeLine .regionStart t
      else if g.closesRegion t then .wholeLine .regionEnd t else .other := by
  have hline : g.startsLineComment t.firstWord = false := by
    rw [Grammar.startsLineComment, Option.any_eq_false]
    intro token htoken
    rw [Bool.eq_false_iff, ne_eq, List.isPrefixOf_iff_prefix]
    exact h _ (mem_commentTokens.mpr (.inl ⟨token, htoken, rfl⟩))
  have hblock : g.blockAt? t.firstWord = none := by
    rw [Grammar.blockAt?, Option.filter_eq_none_iff]
    intro pair hpair
    rw [List.isPrefixOf_iff_prefix]
    exact h _ (mem_commentTokens.mpr (.inr ⟨pair, hpair, rfl⟩))
  simp only [Grammar.readItem, hline, hblock, Bool.false_eq_true, if_false]

/-- Without regions a leading comment starts with the token of a comment. -/
theorem exists_commentToken_of_leading {comment : Text} (hstart : g.regionStart = none)
    (hend : g.regionEnd = none) (h : g.leading t = .ok comment) (hne : comment ≠ []) :
    ∃ token ∈ g.commentTokens, token <+: trimStart t := by
  obtain ⟨s, q, hsteps, -, hleading⟩ := leading_eq_ok_iff.mp h
  cases hpieces : s.pieces with
  | nil => exact absurd (by simpa [Scan.leading, hpieces] using hleading.symm) hne
  | cons piece pieces =>
    rw [hpieces] at hsteps
    cases hsteps with
    | @cons _ middle _ _ _ step _ =>
      have hcore : trimStart t = piece.item.text ++ middle.text := by
        rw [show t = piece.text ++ middle.text from step.text, Piece.text, List.append_assoc,
          trimStart_append step.blank, step.core.1]
      by_contra hno
      have hread := step.item
      rw [readItem_of_no_comment fun token htoken hpre =>
        hno ⟨token, htoken, hcore ▸ hpre.trans (firstWord_isPrefix _)⟩] at hread
      simp [Grammar.opensRegion, Grammar.closesRegion, hstart, hend] at hread

theorem readItem_lineComment {token : Token} {more : Text} (hmem : token ∈ g.line)
    (hplain : ∀ c ∈ token.text, isBlank c = false) (hfills : FillsLine (token.text ++ more) behind) :
    g.readItem (token.text ++ more ++ behind) = .item ⟨.lineComment, token.text ++ more⟩ behind := by
  have hstarts : g.startsLineComment (token.text ++ more ++ behind).firstWord := by
    rw [Grammar.startsLineComment, Option.any_eq_true]
    refine ⟨token, hmem, List.isPrefixOf_iff_prefix.mpr ?_⟩
    rw [List.append_assoc]
    exact isPrefix_firstWord hplain _
  rw [Grammar.readItem, if_pos hstarts, wholeLine_of_fillsLine hfills]

theorem readItem_block (hg : g.Distinct) {opener closer : Token} {inner : Text}
    (hmem : (opener, closer) ∈ g.block)
    (first : ∀ before after, inner ++ closer.text = before ++ closer.text ++ after → after = []) :
    g.readItem (opener.text ++ inner ++ closer.text ++ behind) =
      .item ⟨.blockComment, opener.text ++ inner ++ closer.text⟩ behind := by
  obtain ⟨rest, hrest⟩ : ∃ rest : Text, rest = inner ++ closer.text ++ behind := ⟨_, rfl⟩
  have htext : opener.text ++ inner ++ closer.text ++ behind = opener.text ++ rest := by
    simp only [hrest, List.append_assoc]
  have hplain := hg.plainComment _ (mem_commentTokens.mpr (.inr ⟨_, hmem, rfl⟩))
  have hopener : opener.text <+: (opener.text ++ rest).firstWord := isPrefix_firstWord hplain rest
  have hline : ¬ g.startsLineComment (opener.text ++ rest).firstWord := by
    rw [Grammar.startsLineComment, Option.any_eq_true]
    rintro ⟨line, hline, hprefix⟩
    rcases List.prefix_or_prefix_of_prefix (List.isPrefixOf_iff_prefix.mp hprefix) hopener with h | h
    · exact (hg.line_block line hline _ hmem).1 h
    · exact (hg.line_block line hline _ hmem).2 h
  have hblock : g.blockAt? (opener.text ++ rest).firstWord = some (opener, closer) := by
    rw [Grammar.blockAt?, Option.filter_eq_some_iff]
    exact ⟨hmem, List.isPrefixOf_iff_prefix.mpr hopener⟩
  have hsplit : splitAtFirst? closer.text (inner ++ closer.text ++ behind) = some (inner, behind) :=
    splitAtFirst?_of_occurrence first
  rw [← hrest] at hsplit
  rw [htext, Grammar.readItem, if_neg hline]
  simp only [hblock, Grammar.readBlock, List.drop_left, List.take_left, hsplit]

theorem CommentText.readItem (hg : g.Distinct) (h : CommentText g t)
    (hbehind : ∀ c ∈ behind.head?, isLineBreak c) :
    ∃ kind : ItemKind, g.readItem (t ++ behind) = .item ⟨kind, t⟩ behind ∧
      ∀ depth, kind.depthAfter? depth = some depth := by
  cases h with
  | @line token more member unbroken =>
    have hplain := hg.plainComment _ (mem_commentTokens.mpr (.inl ⟨token, member, rfl⟩))
    have hword : IsWord token.text := ⟨token.ne_nil, hplain⟩
    have hline := hword.unbroken_append unbroken
    exact ⟨.lineComment, readItem_lineComment member hplain ⟨hline, hbehind⟩, fun _ => rfl⟩
  | block member first => exact ⟨.blockComment, readItem_block hg member first, fun _ => rfl⟩

theorem IsRemark.fillsLine {more : Text} (h : IsRemark more)
    (ht : ∀ c ∈ t, isLineBreak c = false) (hbehind : ∀ c ∈ behind.head?, isLineBreak c) :
    FillsLine (t ++ more) behind := by
  refine ⟨?_, hbehind⟩
  intro c hc
  rcases List.mem_append.mp hc with hc | hc
  · exact ht c hc
  · exact h.2 c hc

theorem IsRemark.isBlank_head? {more : Text} (h : IsRemark more)
    (hbehind : ∀ c ∈ behind.head?, isLineBreak c) : ∀ c ∈ (more ++ behind).head?, isBlank c := by
  cases more with
  | nil => exact fun c hc => isBlank_of_isLineBreak (hbehind c hc)
  | cons => exact h.1

theorem readItem_regionStart {start : Token} {more : Text} (hmem : start ∈ g.regionStart)
    (hplain : ∀ c ∈ start.text, isBlank c = false)
    (hcomment : ∀ token ∈ g.commentTokens, ¬ token <+: start.text) (hmore : IsRemark more)
    (hbehind : ∀ c ∈ behind.head?, isLineBreak c) :
    g.readItem (start.text ++ more ++ behind) = .item ⟨.regionStart, start.text ++ more⟩ behind := by
  have hword : (start.text ++ more ++ behind).firstWord = start.text := by
    rw [List.append_assoc]
    exact firstWord_append_of_head? hplain (hmore.isBlank_head? hbehind)
  have hopens : g.opensRegion (start.text ++ more ++ behind) := by
    rw [Grammar.opensRegion, Option.any_eq_true]
    exact ⟨start, hmem, by simpa using hword⟩
  have hfills := hmore.fillsLine
    (fun c hc => isLineBreak_eq_false_of_isBlank_eq_false (hplain c hc)) hbehind
  rw [← hword] at hcomment
  rw [readItem_of_no_comment hcomment, if_pos hopens, wholeLine_of_fillsLine hfills]

theorem readItem_start (hg : g.Distinct) {start : Token} {more : Text} (hmem : start ∈ g.regionStart)
    (hmore : IsRemark more) (hbehind : ∀ c ∈ behind.head?, isLineBreak c) :
    g.readItem (start.text ++ more ++ behind) = .item ⟨.regionStart, start.text ++ more⟩ behind :=
  readItem_regionStart hmem (hg.plainStart start hmem)
    (fun token htoken => hg.comment_start token htoken start hmem) hmore hbehind

theorem isSpelledBy_twoWords {token : Token} {first gap second : Text}
    (htext : token.text = first ++ gap ++ second) (hfirst : first ≠ []) (hgap : gap ≠ [])
    (hsecond : second ≠ []) (hwords : ∀ c ∈ first ++ second, isBlank c = false)
    (hindent : ∀ c ∈ gap, c = ' ' ∨ c = '\t') (hbehind : ∀ c ∈ behind.head?, isBlank c) :
    token.IsSpelledBy (token.text ++ behind) ∧
      (token.text ++ behind).firstWord = token.text.firstWord := by
  have hword := (words_of_append hgap hwords hindent hbehind hsecond).1
  have hself : (first ++ gap ++ second ++ []).firstWord = first :=
    (words_of_append hgap hwords hindent (by simp) hsecond).1
  rw [List.append_nil] at hself
  refine ⟨.inr ⟨first, gap, second, behind, by rw [htext], hfirst, hgap, hsecond, hwords, hindent,
    hbehind, ?_, ?_⟩, by rw [htext, hword, hself]⟩
  · rw [htext, List.append_assoc]
    exact List.prefix_append ..
  · have hnone : gap.filter (!isBlank ·) = [] := by
      rw [List.filter_eq_nil_iff]
      intro c hc
      simp [isBlank_of_space_or_tab (hindent c hc)]
    have hall : (first ++ second).filter (!isBlank ·) = first ++ second := by
      rw [List.filter_eq_self]
      simpa using hwords
    rw [htext, List.filter_append, List.filter_append, hnone, List.append_nil,
      ← List.filter_append, hall]

theorem isSpelledBy_word {token : Token} (hplain : ∀ c ∈ token.text, isBlank c = false)
    (hbehind : ∀ c ∈ behind.head?, isBlank c) :
    token.IsSpelledBy (token.text ++ behind) ∧
      (token.text ++ behind).firstWord = token.text.firstWord := by
  have hword := firstWord_append_of_head? hplain hbehind
  have hself : (token.text ++ []).firstWord = token.text :=
    firstWord_append_of_head? hplain (by simp)
  rw [List.append_nil] at hself
  exact ⟨.inl hword, hword.trans hself.symm⟩

theorem isSpelledBy_oneOrTwoWords {token : Token} (h : OneOrTwoWords token.text)
    (hbehind : ∀ c ∈ behind.head?, isBlank c) :
    token.IsSpelledBy (token.text ++ behind) ∧
      (token.text ++ behind).firstWord = token.text.firstWord := by
  generalize htext : token.text = text at h
  cases h with
  | one h =>
    rw [← htext] at h ⊢
    exact isSpelledBy_word h.2 hbehind
  | two hfirst hsecond hgap hindent =>
    have hwords : ∀ c ∈ _ ++ _, isBlank c = false := fun c hc =>
      (List.mem_append.mp hc).elim (hfirst.2 c) (hsecond.2 c)
    rw [← htext]
    exact isSpelledBy_twoWords htext hfirst.1 hgap hsecond.1 hwords hindent hbehind

theorem readItem_regionEnd {stop : Token} (hmem : stop ∈ g.regionEnd)
    (hspelled : stop.IsSpelledBy (t ++ behind))
    (hcomment : ∀ token ∈ g.commentTokens, ¬ token <+: (t ++ behind).firstWord)
    (hstart : ∀ start ∈ g.regionStart, start.text ≠ (t ++ behind).firstWord)
    (hfills : FillsLine t behind) :
    g.readItem (t ++ behind) = .item ⟨.regionEnd, t⟩ behind := by
  have hopens : g.opensRegion (t ++ behind) = false := by
    rw [Grammar.opensRegion, Option.any_eq_false]
    intro start hmem
    rw [beq_eq_false_iff_ne]
    exact (hstart start hmem).symm
  have hcloses : g.closesRegion (t ++ behind) := closesRegion_iff.mpr ⟨stop, hmem, hspelled⟩
  rw [readItem_of_no_comment hcomment, hopens, if_neg Bool.false_ne_true, if_pos hcloses,
    wholeLine_of_fillsLine hfills]

theorem readItem_stop (hg : g.Distinct) {stop : Token} {more : Text} (hmem : stop ∈ g.regionEnd)
    (hmore : IsRemark more) (hbehind : ∀ c ∈ behind.head?, isLineBreak c) :
    g.readItem (stop.text ++ more ++ behind) = .item ⟨.regionEnd, stop.text ++ more⟩ behind := by
  have hwords := (hg.endWords stop hmem).oneOrTwoWords
  obtain ⟨hspelled, hword⟩ := isSpelledBy_oneOrTwoWords hwords (hmore.isBlank_head? hbehind)
  rw [← List.append_assoc] at hspelled hword
  refine readItem_regionEnd hmem hspelled ?_ ?_ (hmore.fillsLine hwords.unbroken hbehind)
  · rw [hword]
    exact fun token htoken => hg.comment_end token htoken stop hmem
  · rw [hword]
    exact fun start hstart => hg.start_end start hstart stop hmem

theorem Grammar.Foreign.readItem (h : g.Foreign t) : g.readItem t = .other := by
  have hopens : g.opensRegion t = false := by
    rw [Grammar.opensRegion, Option.any_eq_false]
    intro start hstart
    simpa using h.start start hstart
  have hcloses : ¬ g.closesRegion t := by
    rw [closesRegion_iff]
    rintro ⟨stop, hstop, hspelled⟩
    exact h.stop stop hstop hspelled
  rw [readItem_of_no_comment h.comment, hopens, if_neg Bool.false_ne_true, if_neg hcloses]

end Reading

/-! ## Reading a passage -/

section Scanning

variable {g : Grammar} {e : LineEnding} {p q : Place} {lead indent rest tail : Text}
  {pieces : List Piece} {inRegion : Bool}

/-- Blanks without a blank line, unless blank lines are ignored, are all that is in front of `rest`. -/
structure Place.Awaits (p : Place) (lead rest : Text) : Prop where
  text : p.text = lead ++ rest
  blank : lead.isAllBlank
  gap : p.watches → (endings lead).length ≤ 1

theorem Place.Awaits.lineEnding (e : LineEnding) (depth : Nat) (rest : Text) :
    Place.Awaits ⟨true, depth, e.text ++ rest⟩ e.text rest where
  text := rfl
  blank := by cases e <;> rfl
  gap := by simp

theorem isAllBlank_of_isIndent (h : ∀ c ∈ indent, isIndent c) : indent.isAllBlank := by
  rw [isAllBlank_iff]
  intro c hc
  have := h c hc
  simp only [isIndent, Bool.and_eq_true] at this
  exact this.1

theorem Place.Awaits.indented (h : p.Awaits lead (indent ++ rest)) (hindent : ∀ c ∈ indent, isIndent c) :
    p.Awaits (lead ++ indent) rest where
  text := by rw [h.text, List.append_assoc]
  blank := by rw [isAllBlank_append, h.blank, isAllBlank_of_isIndent hindent]; rfl
  gap := by
    rw [endings_append_of_unbroken fun c hc => isLineBreak_eq_false_of_isIndent (hindent c hc)]
    exact h.gap

theorem Place.Awaits.blankLine (h : p.Awaits lead (e.text ++ rest)) (hdepth : p.depth ≠ 0) :
    p.Awaits (lead ++ e.text) rest where
  text := by rw [h.text, List.append_assoc]
  blank := by
    rw [isAllBlank_append, h.blank]
    cases e <;> rfl
  gap := by simp [Place.watches, hdepth]

theorem Place.Awaits.step {item behind : Text} {kind : ItemKind} {depth : Nat}
    (h : p.Awaits lead (indent ++ (item ++ behind))) (hindent : ∀ c ∈ indent, isIndent c)
    (hitem : g.readItem (item ++ behind) = .item ⟨kind, item⟩ behind)
    (hdepth : kind.depthAfter? p.depth = some depth) :
    Step g p ⟨lead ++ indent, ⟨kind, item⟩⟩ ⟨true, depth, behind⟩ where
  text := by simp [h.text, Piece.text]
  blank := (h.indented hindent).blank
  gap hwatches := not_holdsBlankLine ((h.indented hindent).gap hwatches)
  item := hitem
  depth := hdepth
  started := rfl

/-- A scan reads a passage, with no region opened or closed in the end. Outside of regions it stops
right in front of the last line ending. -/
theorem Passage.steps {t : Text} (hg : g.Distinct) (h : Passage g e inRegion t)
    (hp : p.Awaits lead (t ++ tail)) (hdepth : inRegion → p.depth ≠ 0) :
    ∃ pieces lead' q, Steps g p pieces q ∧ q.depth = p.depth ∧ q.Awaits lead' tail ∧
      (inRegion = false → t = [] ∧ pieces = [] ∧ lead' = lead ∨ pieces ≠ [] ∧ lead' = e.text) := by
  induction h generalizing p lead tail with
  | nil => exact ⟨[], lead, p, .nil, rfl, hp, fun _ => .inl ⟨rfl, rfl, rfl⟩⟩
  | @comment inRegion indent item rest indented written others ih =>
    obtain ⟨kind, hitem, hkind⟩ :=
      written.readItem hg (isLineBreak_head?_text_append e (rest ++ tail))
    have hfront : p.Awaits lead (indent ++ (item ++ (e.text ++ (rest ++ tail)))) := by
      simpa using hp
    have hstep := hfront.step indented hitem (hkind p.depth)
    obtain ⟨pieces, lead', q, hsteps, hq, hawaits, hend⟩ := ih (.lineEnding e p.depth (rest ++ tail)) hdepth
    refine ⟨_ :: pieces, lead', q, .cons hstep hsteps, hq, hawaits, ?_⟩
    intro houtside
    rcases hend houtside with ⟨-, -, rfl⟩ | ⟨-, rfl⟩
    · exact .inr ⟨by simp, rfl⟩
    · exact .inr ⟨by simp, rfl⟩
  | @region inRegion start stop indent indent' more more' inner rest start_mem stop_mem indented
      remark remark' inside others ihInside ih =>
    have hindent : ∀ c ∈ indent, isIndent c := fun c hc => indented c (by simp [hc])
    have hindent' : ∀ c ∈ indent', isIndent c := fun c hc => indented c (by simp [hc])
    obtain ⟨behind, hbehind⟩ : ∃ behind : Text, behind =
        indent' ++ (stop.text ++ more' ++ (e.text ++ (rest ++ tail))) := ⟨_, rfl⟩
    have hfront : p.Awaits lead
        (indent ++ (start.text ++ more ++ (e.text ++ (inner ++ behind)))) := by
      simpa [hbehind] using hp
    have hopens := hfront.step hindent
      (readItem_start hg start_mem remark (isLineBreak_head?_text_append e (inner ++ behind))) rfl
    obtain ⟨pieces, lead₁, q₁, hsteps₁, hq₁, hawaits₁, -⟩ :=
      ihInside (.lineEnding e (p.depth + 1) (inner ++ behind)) (by simp)
    rw [hbehind] at hawaits₁
    have hshallower : ItemKind.regionEnd.depthAfter? q₁.depth = some p.depth := by
      rw [hq₁]
      rfl
    have hcloses := hawaits₁.step hindent'
      (readItem_stop hg stop_mem remark' (isLineBreak_head?_text_append e (rest ++ tail))) hshallower
    obtain ⟨pieces', lead', q, hsteps, hq, hawaits, hend⟩ := ih (.lineEnding e p.depth (rest ++ tail)) hdepth
    refine ⟨_ :: (pieces ++ _ :: pieces'), lead', q,
      .cons hopens (hsteps₁.append (.cons hcloses hsteps)), hq, hawaits, ?_⟩
    intro houtside
    rcases hend houtside with ⟨-, -, rfl⟩ | ⟨-, rfl⟩
    · exact .inr ⟨by simp, rfl⟩
    · exact .inr ⟨by simp, rfl⟩
  | @blankLine indent rest indented others ih =>
    have hline : p.Awaits lead (indent ++ (e.text ++ (rest ++ tail))) := by simpa using hp
    obtain ⟨pieces, lead', q, hsteps, hq, hawaits, -⟩ :=
      ih ((hline.indented indented).blankLine (hdepth rfl)) hdepth
    exact ⟨pieces, lead', q, hsteps, hq, hawaits, by simp⟩

theorem Steps.closed (h : Steps g p pieces q) (hq : q.depth = 0) : Closed p.depth pieces := by
  induction h with
  | nil => simp [Closed, closedCount?, hq]
  | cons step _ ih => exact closed_cons_iff.mpr ⟨_, step.depth, ih hq⟩

theorem isComplete_of_leading {t : Text} (h : g.leading t = .ok t) : g.isComplete t := by
  simp [Grammar.isComplete, h]

theorem leading_of_scanned {t blanks : Text} {stop : Stop} (hsteps : Steps g (.start t) pieces q)
    (hne : pieces ≠ []) (hdepth : q.depth = 0) (hhalt : Halts g q blanks stop)
    (hstop : stop ≠ .otherText) : g.leading t = .ok (piecesText pieces ++ blanks) := by
  have hclosed : closedCount? 0 pieces = some pieces.length := hsteps.closed hdepth
  refine leading_eq_ok_iff.mpr ⟨⟨pieces, blanks, stop⟩, q, hsteps, hhalt, ?_⟩
  rw [Scan.leading_eq hsteps hclosed, if_neg (mt List.length_eq_zero_iff.mp hne),
    Scan.found_of_length_le le_rfl, if_neg hstop, Scan.text]

/-- The text behind a passage: none, or a word that starts no item, in the first line. -/
def Grammar.EndsPassage (g : Grammar) (tail : Text) : Prop :=
  tail = [] ∨ ∃ indent core, tail = indent ++ core ∧ (∀ c ∈ indent, isIndent c) ∧ g.Foreign core

theorem Grammar.Foreign.core {t : Text} (h : g.Foreign t) : t.trimStart = t ∧ t ≠ [] := by
  cases t with
  | nil => exact absurd rfl h.word
  | cons c t =>
    have hc : isBlank c = false := by
      cases hc : isBlank c with
      | false => rfl
      | true => exact absurd (by simp [firstWord, hc]) h.word
    exact ⟨trimStart_cons hc t, by simp⟩

theorem Grammar.EndsPassage.halts (h : g.EndsPassage tail) (hq : q.Awaits lead tail) :
    ∃ indent stop, Halts g q (lead ++ indent) stop ∧ (∀ c ∈ indent, isIndent c) ∧
      (stop ≠ .otherText → indent = []) := by
  rcases h with rfl | ⟨indent, core, rfl, hindent, hforeign⟩
  · refine ⟨[], .endOfText, ⟨?_, ?_, ?_⟩, by simp, fun _ => rfl⟩
    · rw [hq.text]
    · rw [List.append_nil, hq.blank]
    · rw [List.append_nil]
      exact fun hwatches => not_holdsBlankLine (hq.gap hwatches)
  · have hcore := hq.indented hindent
    exact ⟨indent, .otherText, ⟨core, hcore.text, hcore.blank,
      fun hwatches => not_holdsBlankLine (hcore.gap hwatches), hforeign.core.1, hforeign.core.2,
      hforeign.readItem⟩, hindent, by simp⟩

theorem dropIndent_lineEnding_append (t : Text) (hindent : ∀ c ∈ indent, isIndent c) :
    dropIndent (t ++ e.text ++ indent) = t ++ e.text := by
  obtain ⟨c, hc, hbreak⟩ : ∃ c, (t ++ e.text).getLast? = some c ∧ isLineBreak c := by
    cases e with
    | cr => exact ⟨'\r', by simp [LineEnding.text], rfl⟩
    | lf => exact ⟨'\n', by simp [LineEnding.text], rfl⟩
    | crlf => exact ⟨'\n', by simp [LineEnding.text], rfl⟩
  rw [dropIndent_append_indent hindent, dropIndent_of_getLast? hc hbreak]

/-- A passage is the leading comment of the text it stands in front of, if that text starts with no
item. -/
theorem leading_passage {t : Text} (hg : g.Distinct) (h : Passage g e false t)
    (htail : g.EndsPassage tail) : g.leading (t ++ tail) = .ok t := by
  have hstart : (Place.start (t ++ tail)).Awaits [] (t ++ tail) := ⟨rfl, rfl, by simp⟩
  obtain ⟨pieces, lead, q, hsteps, hq, hawaits, hend⟩ := h.steps hg hstart (by simp)
  obtain ⟨indent, stop, hhalt, hindent, hstop⟩ := htail.halts hawaits
  refine leading_eq_ok_iff.mpr ⟨⟨pieces, lead ++ indent, stop⟩, q, hsteps, hhalt, ?_⟩
  have hclosed : closedCount? 0 pieces = some pieces.length := hsteps.closed hq
  rw [Scan.leading_eq hsteps hclosed]
  have htext : t = piecesText pieces ++ lead := by
    have := hsteps.text
    rw [Place.start, hawaits.text, ← List.append_assoc] at this
    exact List.append_cancel_right this
  rcases hend rfl with ⟨rfl, rfl, -⟩ | ⟨hne, rfl⟩
  · rfl
  · rw [if_neg (mt List.length_eq_zero_iff.mp hne), Scan.found_of_length_le le_rfl, Scan.text]
    by_cases hother : stop = .otherText
    · rw [if_pos hother, ← List.append_assoc, dropIndent_lineEnding_append _ hindent, htext]
    · rw [if_neg hother, hstop hother, List.append_nil, htext]

end Scanning

theorem distinct_regionGrammar : regionGrammar.Distinct where
  plainComment := by
    intro token htoken
    have hplain : ∀ token ∈ regionGrammar.commentTokens, token.any isBlank = false := by decide
    exact eq_false_of_not_any (hplain token htoken)
  plainStart := by
    intro start hstart
    obtain rfl := Option.some.inj hstart
    exact eq_false_of_not_any (by decide)
  endWords := by
    intro stop hstop
    obtain rfl := Option.some.inj hstop
    exact .inl (eq_false_of_not_any (by decide))
  comment_start := by decide
  comment_end := by decide
  line_block := by decide
  start_end := by decide

/-- A comment and a region with a blank line and a region of its own. -/
theorem passage_nestedRegions :
    Passage regionGrammar .lf false
      "// a\n#region b\n \n\t#region\n/* c\n\n*/\n#endregion d\n#endregion\n".toList := by
  have hline : CommentText regionGrammar "// a".toList :=
    @CommentText.line _ ⟨"//".toList, by decide⟩ " a".toList rfl (eq_false_of_not_any (by decide))
  have hblock : CommentText regionGrammar "/* c\n\n*/".toList := by
    refine @CommentText.block _ ⟨"/*".toList, by decide⟩ ⟨"*/".toList, by decide⟩ " c\n\n".toList rfl ?_
    intro before after hocc
    have hsplit : splitAtFirst? "*/".toList (" c\n\n".toList ++ "*/".toList ++ []) =
        some (" c\n\n".toList, []) := by decide
    exact eq_nil_of_occurrence hsplit hocc
  have hinner : Passage regionGrammar .lf true "\t#region\n/* c\n\n*/\n#endregion d\n".toList :=
    @Passage.region _ _ _ ⟨"#region".toList, by decide⟩ ⟨"#endregion".toList, by decide⟩ "\t".toList []
      [] " d".toList _ [] rfl rfl (List.all_eq_true.mp (by decide)) ⟨by simp, by simp⟩
      ⟨by rintro c ⟨⟩; rfl, eq_false_of_not_any (by decide)⟩
      (@Passage.comment _ _ _ [] _ [] (by simp) hblock .nil) .nil
  have hinside : Passage regionGrammar .lf true
      " \n\t#region\n/* c\n\n*/\n#endregion d\n".toList :=
    @Passage.blankLine _ _ " ".toList _ (List.all_eq_true.mp (by decide)) hinner
  have hregion : Passage regionGrammar .lf false
      "#region b\n \n\t#region\n/* c\n\n*/\n#endregion d\n#endregion\n".toList :=
    @Passage.region _ _ _ ⟨"#region".toList, by decide⟩ ⟨"#endregion".toList, by decide⟩ [] []
      " b".toList [] _ [] rfl rfl (by simp) ⟨by rintro c ⟨⟩; rfl, eq_false_of_not_any (by decide)⟩
      ⟨by simp, by simp⟩ hinside .nil
  exact @Passage.comment _ _ _ [] _ _ (by simp) hline hregion

theorem foreign_code : regionGrammar.Foreign "code\n// e\n".toList where
  word := by decide
  comment := by decide
  start := by decide
  stop := by
    intro stop hstop hspelled
    have hcloses : regionGrammar.closesRegion "code\n// e\n".toList :=
      closesRegion_iff.mpr ⟨stop, hstop, hspelled⟩
    exact absurd hcloses (by decide)

/-- The indentation of the code belongs to the code. -/
theorem leading_nestedRegions :
    regionGrammar.leading
        ("// a\n#region b\n \n\t#region\n/* c\n\n*/\n#endregion d\n#endregion\n".toList ++
          "  code\n// e\n".toList) =
      .ok "// a\n#region b\n \n\t#region\n/* c\n\n*/\n#endregion d\n#endregion\n".toList := by
  have htail : regionGrammar.EndsPassage "  code\n// e\n".toList :=
    .inr ⟨"  ".toList, "code\n// e\n".toList, rfl, List.all_eq_true.mp (by decide), foreign_code⟩
  exact leading_passage distinct_regionGrammar passage_nestedRegions htail

end Comment
end Masthead
