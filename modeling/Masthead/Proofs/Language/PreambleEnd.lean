import Masthead.Proofs.Comment.Completeness
import Masthead.Proofs.Language.Preamble

namespace Masthead.Language
open Text Pattern

variable {s t u : Text}

section Tag

variable {opener : Text} {p : Char → Bool}

theorem behindTag_getD_eq_self_iff (hne : opener ≠ []) :
    (behindTag opener p t).getD t = t ↔ ¬ opener <+: t := by
  unfold behindTag
  cases h : opener.isPrefixOf? t with
  | none =>
    refine iff_of_true rfl ?_
    rintro ⟨rest, hrest⟩
    simp [isPrefixOf?_eq_some_iff.mpr hrest.symm] at h
  | some rest =>
    obtain rfl := isPrefixOf?_eq_some_iff.mp h
    refine iff_of_false (fun heq => ?_) (not_not.mpr (List.prefix_append _ _))
    have hle := (dropLineWhile_suffix p rest).length_le
    have hlen := congrArg List.length heq
    have hpos := List.length_pos_iff.mpr hne
    simp only [Option.map_some, Option.getD_some, List.length_append] at hlen
    omega

theorem behindTag_append_iff (hne : opener ≠ []) (hopen : EndsOpen opener)
    (hp : ∀ c, isLineBreak c → p c = false) (hs : (behindTag opener p (s ++ t)).getD (s ++ t) = t) :
    (behindTag opener p (s ++ u)).getD (s ++ u) = u ↔
      if s = [] then ¬ opener <+: u else Sealed p s u := by
  split
  · rename_i hnil
    rw [hnil, List.nil_append]
    exact behindTag_getD_eq_self_iff hne
  · rename_i hsne
    obtain ⟨rest, hrest⟩ : opener <+: s ++ t := by
      by_contra hno
      rw [(behindTag_getD_eq_self_iff hne).mpr hno] at hs
      exact hsne (List.append_left_eq_self.mp hs)
    obtain ⟨line, hof, hline⟩ := exists_dropLineWhile p rest
    rw [← hrest, behindTag, isPrefixOf?_eq_some_iff.mpr rfl, Option.map_some,
      Option.getD_some] at hs
    rw [hs] at hline
    rw [hline, ← List.append_assoc] at hrest
    obtain rfl := List.append_cancel_right hrest
    rw [List.append_assoc, behindTag, isPrefixOf?_eq_some_iff.mpr rfl, Option.map_some,
      Option.getD_some, dropLineWhile_append_iff hp hof, sealed_append hopen]

end Tag

section Markup

variable {opener closer : Text}

theorem endsOpen_append_bracket (t : Text) : EndsOpen (t ++ ">".toList) := by
  have hlast : (t ++ ">".toList).getLast? = some '>' := List.getLast?_append_of_ne_nil _ (by decide)
  rw [EndsOpen, hlast]
  rintro c ⟨⟩
  rfl

theorem behindEnclosed_eq_none (h : ¬ opener <+: t) : behindEnclosed opener closer t = none := by
  rw [behindEnclosed, Option.bind_eq_none_iff]
  intro rest hrest
  exact absurd ⟨rest, (isPrefixOf?_eq_some_iff.mp hrest).symm⟩ h

theorem exists_of_behindEnclosed {rest : Text} (h : behindEnclosed opener closer t = some rest) :
    ∃ inner, t = opener ++ inner ++ closer ++ rest ∧
      ∀ u, behindEnclosed opener closer (opener ++ inner ++ closer ++ u) = some u := by
  obtain ⟨after, hafter, hfirst⟩ := Option.bind_eq_some_iff.mp h
  obtain ⟨⟨inner, rest'⟩, hsplit, rfl⟩ := Option.map_eq_some_iff.mp hfirst
  have htext := eq_of_splitAtFirst?_eq_some hsplit
  have hagain : ∀ u, splitAtFirst? closer (inner ++ closer ++ u) = some (inner, u) := fun u =>
    Comment.splitAtFirst?_of_occurrence fun before behind hocc =>
      eq_nil_of_occurrence (htext ▸ hsplit) hocc
  refine ⟨inner, ?_, fun u => ?_⟩
  · rw [isPrefixOf?_eq_some_iff.mp hafter, htext]
    simp
  · rw [List.append_assoc, List.append_assoc, ← List.append_assoc inner, behindEnclosed,
      isPrefixOf?_eq_some_iff.mpr rfl, Option.bind_some, behindFirst, hagain]
    rfl

theorem dropDoctype_suffix (t : Text) : dropDoctype t <:+ t := by
  unfold dropDoctype
  cases hread : behindEnclosed "<!DOCTYPE".toList ">".toList (trimStart t) with
  | none => exact List.suffix_rfl
  | some rest =>
    obtain ⟨inner, htext, -⟩ := exists_of_behindEnclosed hread
    have hsuffix : rest <:+ trimStart t := ⟨_, htext.symm⟩
    exact hsuffix.trans (List.dropWhile_suffix isBlank)

/-- The rest of a line, or a document type with the rest of its line. In front of a comment it is
taken off as in front of any other text. -/
theorem exists_doctype (hs : dropLineWhile isSpaceOrTab (dropDoctype (s ++ t)) = t) :
    ∃ front line, s = front ++ line ∧ EndsOpen front ∧ IsLineOf isSpaceOrTab line ∧
      ∀ u : Text, "<!--".toList <+: trimStart u →
        dropDoctype (s ++ u) = line ++ u ∧ "<!".toList <+: trimStart (s ++ u) := by
  obtain ⟨line, hof, hline⟩ := exists_dropLineWhile isSpaceOrTab (dropDoctype (s ++ t))
  rw [hs] at hline
  unfold dropDoctype at hline
  cases hread : behindEnclosed "<!DOCTYPE".toList ">".toList (trimStart (s ++ t)) with
  | none =>
    rw [hread, Option.getD_none] at hline
    obtain rfl := List.append_cancel_right hline
    refine ⟨[], s, rfl, by simp [EndsOpen], hof, fun u hu => ?_⟩
    have hno : ¬ "<!DOCTYPE".toList <+: trimStart u := by
      obtain ⟨rest, hrest⟩ := hu
      simp [← hrest]
    rw [dropDoctype, trimStart_append (isAllBlank_of_isLineOf hof), behindEnclosed_eq_none hno]
    exact ⟨rfl, (show "<!".toList <+: "<!--".toList by decide).trans hu⟩
  | some rest =>
    rw [hread, Option.getD_some] at hline
    obtain ⟨inner, htext, hagain⟩ := exists_of_behindEnclosed hread
    obtain ⟨blanks, hblanks, hst⟩ := exists_append_trimStart (s ++ t)
    rw [htext, hline, ← List.append_assoc, ← List.append_assoc] at hst
    obtain rfl := List.append_cancel_right hst
    refine ⟨blanks ++ ("<!DOCTYPE".toList ++ inner ++ ">".toList), line, rfl, ?_, hof,
      fun u _ => ?_⟩
    · rw [← List.append_assoc]
      exact endsOpen_append_bracket _
    · have htrim : trimStart (blanks ++ ("<!DOCTYPE".toList ++ inner ++ ">".toList) ++ line ++ u) =
          "<!DOCTYPE".toList ++ inner ++ ">".toList ++ (line ++ u) := by
        rw [List.append_assoc, List.append_assoc, trimStart_append hblanks]
        exact trimStart_cons (by decide) _
      rw [dropDoctype, htrim, hagain]
      exact ⟨rfl, by simp⟩

theorem exists_declaration
    (hs : dropLineWhile isSpaceOrTab (dropDoctype (dropDeclaration (s ++ t))) = t) :
    ∃ front rest, s = front ++ rest ∧ EndsOpen front ∧
      dropLineWhile isSpaceOrTab (dropDoctype (rest ++ t)) = t ∧
      ∀ u : Text, "<!".toList <+: trimStart (rest ++ u) → dropDeclaration (s ++ u) = rest ++ u := by
  cases hread : behindEnclosed "<?xml".toList "?>".toList (s ++ t) with
  | none =>
    rw [dropDeclaration, hread, Option.getD_none] at hs
    refine ⟨[], s, rfl, by simp [EndsOpen], hs, fun u hu => ?_⟩
    have hno : ¬ "<?xml".toList <+: s ++ u := by
      rintro ⟨more, hmore⟩
      rw [← hmore, show trimStart ("<?xml".toList ++ more) = "<?xml".toList ++ more from
        trimStart_cons (by decide) _] at hu
      simp at hu
    rw [dropDeclaration, behindEnclosed_eq_none hno, Option.getD_none]
  | some after =>
    rw [dropDeclaration, hread, Option.getD_some] at hs
    obtain ⟨inner, htext, hagain⟩ := exists_of_behindEnclosed hread
    obtain ⟨rest, rfl⟩ : t <:+ after :=
      hs ▸ (dropLineWhile_suffix _ _).trans (dropDoctype_suffix after)
    rw [← List.append_assoc] at htext
    obtain rfl := List.append_cancel_right htext
    refine ⟨"<?xml".toList ++ inner ++ "?>".toList, rest, rfl, ?_, hs, fun u _ => ?_⟩
    · rw [show "?>".toList = ['?'] ++ ">".toList from rfl, ← List.append_assoc]
      exact endsOpen_append_bracket _
    · rw [List.append_assoc, dropDeclaration, hagain, Option.getD_some]

theorem dropMarkup_append_iff
    (hs : dropLineWhile isSpaceOrTab (dropDoctype (dropDeclaration (s ++ t))) = t)
    (hu : "<!--".toList <+: trimStart u) :
    dropLineWhile isSpaceOrTab (dropDoctype (dropDeclaration (s ++ u))) = u ↔
      Sealed isSpaceOrTab s u := by
  obtain ⟨front, rest, rfl, hfront, hrest, hdeclaration⟩ := exists_declaration hs
  obtain ⟨front', line, rfl, hfront', hof, hdoctype⟩ := exists_doctype hrest
  obtain ⟨hdoctype, hcomment⟩ := hdoctype u hu
  rw [hdeclaration u hcomment, hdoctype, dropLineWhile_append_iff isSpaceOrTab_of_isLineBreak hof,
    sealed_append hfront, sealed_append hfront']

end Markup

section Bracket

/-- A bracket is closed in the first line exactly if nothing but characters of its line stands in
front of it. -/
theorem infix_firstLine_iff : "/>".toList <:+: t.firstLine ↔
    ∃ front back, t = front ++ ("/>".toList ++ back) ∧ ∀ c ∈ front, isLineBreak c = false := by
  constructor
  · rintro ⟨front, back, hline⟩
    refine ⟨front, back ++ t.dropWhile (!isLineBreak ·), ?_, fun c hc => ?_⟩
    · rw [← List.append_assoc, ← List.append_assoc, hline, Comment.firstLine_append_dropWhile]
    · have hmem : c ∈ t.firstLine := by rw [← hline]; simp [hc]
      exact (Comment.fillsLine_firstLine t).1 c hmem
  · rintro ⟨front, back, rfl, hfront⟩
    rw [Comment.firstLine_append_of_unbroken hfront,
      Comment.firstLine_append_of_unbroken (by simp [isLineBreak])]
    exact ⟨front, back.firstLine, by simp⟩

theorem infix_firstLine_append_iff {line : Text} (h : IsLineOf isSpaceOrTab line) :
    "/>".toList <:+: (line ++ t).firstLine ↔ EndsOpen line ∧ "/>".toList <:+: t.firstLine := by
  rcases firstLine_append_of_isLineOf h t with ⟨hopen, hline⟩ | ⟨hclosed, hblank⟩
  · rw [hline, infix_blanks_append_iff (isAllBlank_of_isLineOf h) rfl (by decide),
      and_iff_right hopen]
  · refine iff_of_false (fun hcloses => ?_) fun hboth => hclosed hboth.1
    exact absurd (isAllBlank_iff.mp hblank '/' (hcloses.subset (by decide))) (by decide)

/-- Whether the first line of a text that closes a bracket closes one depends on that text only. -/
theorem infix_firstLine_of_closes (hs : "/>".toList <:+: s)
    (h : "/>".toList <:+: (s ++ t).firstLine) (u : Text) : "/>".toList <:+: (s ++ u).firstLine := by
  by_cases hline : ∀ c ∈ s, isLineBreak c = false
  · rw [Comment.firstLine_append_of_unbroken hline]
    exact hs.trans (List.prefix_append _ _).isInfix
  · have hbroken : (s.takeWhile (!isLineBreak ·)).length ≠ s.length := by
      intro hlen
      refine hline fun c hc => ?_
      rw [← (List.takeWhile_prefix (!isLineBreak ·)).eq_of_length hlen] at hc
      simpa using List.mem_takeWhile_imp hc
    rw [firstLine, List.takeWhile_append, if_neg hbroken] at h ⊢
    exact h

theorem behindTag_bracket_eq_some_iff {rest : Text} :
    behindTag "/>".toList isSpaceOrTab t = some rest ↔
      ∃ back, t = "/>".toList ++ back ∧ dropLineWhile isSpaceOrTab back = rest := by
  rw [behindTag, Option.map_eq_some_iff]
  exact exists_congr fun back => and_congr_left' isPrefixOf?_eq_some_iff

theorem behindBracket_eq_none_iff : behindBracket t = none ↔ ¬ "/>".toList <:+: t.firstLine := by
  rw [behindBracket, readBehind_eq_none_iff, infix_firstLine_iff]
  constructor
  · rintro h ⟨front, back, htext, hfront⟩
    have hnone := h front _ htext (by simpa using hfront)
    rw [behindTag, isPrefixOf?_eq_some_iff.mpr rfl] at hnone
    cases hnone
  · intro h front back htext hfront
    cases hread : behindTag "/>".toList isSpaceOrTab back with
    | none => rfl
    | some rest =>
      obtain ⟨after, rfl, -⟩ := behindTag_bracket_eq_some_iff.mp hread
      exact absurd ⟨front, after, htext, by simpa using hfront⟩ h

theorem exists_behindBracket (h : "/>".toList <:+: t.firstLine) :
    ∃ rest, behindBracket t = some rest := by
  rw [← Option.isSome_iff_exists, ← Option.ne_none_iff_isSome]
  exact fun hnone => behindBracket_eq_none_iff.mp hnone h

theorem behindBracket_eq_some_iff {rest : Text} : behindBracket t = some rest ↔
    ∃ front back, t = front ++ ("/>".toList ++ back) ∧ (∀ c ∈ front, isLineBreak c = false) ∧
      ¬ "/>".toList <:+: back.firstLine ∧ dropLineWhile isSpaceOrTab back = rest := by
  have hlast : ∀ back : Text, (∀ c back', "/>".toList ++ back = c :: back' → !isLineBreak c →
      behindBracket back' = none) ↔ ¬ "/>".toList <:+: back.firstLine := by
    intro back
    have hcloses : "/>".toList <:+: Text.firstLine ('>' :: back) ↔
        "/>".toList <:+: back.firstLine := by
      rw [show Text.firstLine ('>' :: back) = '>' :: back.firstLine from rfl, List.infix_cons_iff,
        or_iff_right]
      simp
    rw [← hcloses, ← behindBracket_eq_none_iff]
    constructor
    · exact fun h => h '/' ('>' :: back) rfl rfl
    · rintro h c back' heq -
      rwa [← (List.cons.inj heq).2]
  rw [behindBracket, readBehind_eq_some_iff]
  constructor
  · rintro ⟨front, back, htext, hfront, hread, hothers⟩
    obtain ⟨after, rfl, hrest⟩ := behindTag_bracket_eq_some_iff.mp hread
    exact ⟨front, after, htext, by simpa using hfront, (hlast after).mp hothers, hrest⟩
  · rintro ⟨front, back, htext, hfront, hothers, hrest⟩
    exact ⟨front, _, htext, by simpa using hfront,
      behindTag_bracket_eq_some_iff.mpr ⟨back, rfl, hrest⟩, (hlast back).mpr hothers⟩

end Bracket

section References

/-- A reference up to a closing bracket, with its attributes in one line. -/
def IsReference (t : Text) : Prop :=
  ∃ gap attributes : Text,
    t = "///".toList ++ gap ++ "<reference".toList ++ attributes ++ "/>".toList ∧
      gap.isAllBlank ∧ ∀ c ∈ attributes, isLineBreak c = false

namespace IsReference

variable {reference : Text} (h : IsReference reference)
include h

theorem infix_bracket : "/>".toList <:+: reference := by
  obtain ⟨gap, attributes, rfl, -⟩ := h
  exact (List.suffix_append _ _).isInfix

theorem ne_nil : reference ≠ [] := by
  obtain ⟨gap, attributes, rfl, -⟩ := h
  simp

theorem endsOpen : EndsOpen reference := by
  obtain ⟨gap, attributes, rfl, -⟩ := h
  rw [show "/>".toList = ['/'] ++ ">".toList from rfl, ← List.append_assoc]
  exact endsOpen_append_bracket _

theorem append {more : Text} (hmore : ∀ c ∈ more, isLineBreak c = false) :
    IsReference (reference ++ more ++ "/>".toList) := by
  obtain ⟨gap, attributes, rfl, hgap, hattributes⟩ := h
  refine ⟨gap, attributes ++ "/>".toList ++ more, by simp, hgap, ?_⟩
  simp only [List.mem_append]
  rintro c ((hc | hc) | hc)
  · exact hattributes c hc
  · exact eq_false_of_not_any (by decide : "/>".toList.any isLineBreak = false) c hc
  · exact hmore c hc

end IsReference

theorem behindReference_eq_some {rest : Text} : behindReference t = some rest ↔
    ∃ gap after, t = "///".toList ++ gap ++ "<reference".toList ++ after ∧ gap.isAllBlank ∧
      behindBracket after = some rest := by
  rw [behindReference, Option.bind_eq_some_iff]
  constructor
  · rintro ⟨line, hline, hread⟩
    obtain ⟨after, hafter, hbracket⟩ := Option.bind_eq_some_iff.mp hread
    obtain ⟨gap, hgap, htrim⟩ := exists_append_trimStart line
    rw [isPrefixOf?_eq_some_iff] at hline hafter
    refine ⟨gap, after, ?_, hgap, hbracket⟩
    rw [hline, htrim, hafter]
    simp [List.append_assoc]
  · rintro ⟨gap, after, rfl, hgap, hbracket⟩
    refine ⟨gap ++ ("<reference".toList ++ after), ?_,
      Option.bind_eq_some_iff.mpr ⟨after, ?_, hbracket⟩⟩
    · rw [isPrefixOf?_eq_some_iff]
      simp [List.append_assoc]
    · rw [isPrefixOf?_eq_some_iff, trimStart_append hgap]
      exact trimStart_cons (by decide) _

/-- A reference is read up to the last bracket that its line closes, with the rest of the line if
that is blank. -/
theorem behindReference_eq_some_iff {rest : Text} : behindReference t = some rest ↔
    ∃ reference back, IsReference reference ∧ t = reference ++ back ∧
      ¬ "/>".toList <:+: back.firstLine ∧ dropLineWhile isSpaceOrTab back = rest := by
  simp only [behindReference_eq_some, behindBracket_eq_some_iff]
  constructor
  · rintro ⟨gap, _, rfl, hgap, front, back, rfl, hfront, hothers, hrest⟩
    exact ⟨_, back, ⟨gap, front, rfl, hgap, hfront⟩, by simp [List.append_assoc], hothers, hrest⟩
  · rintro ⟨_, back, ⟨gap, front, rfl, hgap, hfront⟩, rfl, hothers, hrest⟩
    exact ⟨gap, _, by simp [List.append_assoc], hgap, front, back, rfl, hfront, hothers, hrest⟩

theorem behindReference_eq_none_iff : behindReference t = none ↔
    ∀ reference, IsReference reference → ¬ reference <+: t := by
  constructor
  · rintro h _ ⟨gap, front, rfl, hgap, hfront⟩ ⟨back, rfl⟩
    obtain ⟨rest, hrest⟩ :=
      exists_behindBracket (infix_firstLine_iff.mpr ⟨front, back, rfl, hfront⟩)
    have hsome := behindReference_eq_some.mpr ⟨gap, _, rfl, hgap, hrest⟩
    rw [← List.append_assoc, ← List.append_assoc, h] at hsome
    cases hsome
  · intro h
    cases hread : behindReference t with
    | none => rfl
    | some rest =>
      obtain ⟨reference, back, href, rfl, -⟩ := behindReference_eq_some_iff.mp hread
      exact absurd (List.prefix_append reference back) (h reference href)

/-- A reference and the rest of its line are taken off a text in front of `t`. -/
structure TakenOff (reference line t : Text) : Prop where
  isReference : IsReference reference
  isLine : IsLineOf isSpaceOrTab line
  isLast : ¬ "/>".toList <:+: (line ++ t).firstLine
  isSealed : Sealed isSpaceOrTab line t

section TakenOff

variable {reference line more : Text}

theorem TakenOff.behindReference_eq (h : TakenOff reference line t) :
    behindReference (reference ++ (line ++ t)) = some t :=
  behindReference_eq_some_iff.mpr ⟨reference, _, h.isReference, rfl, h.isLast,
    (dropLineWhile_append_iff isSpaceOrTab_of_isLineBreak h.isLine).mpr h.isSealed⟩

theorem exists_takenOff (hs : readAll behindReference (s ++ t) = t) (hne : s ≠ []) :
    ∃ reference line more, s = reference ++ (line ++ more) ∧ TakenOff reference line (more ++ t) ∧
      readAll behindReference (more ++ t) = t := by
  cases hread : behindReference (s ++ t) with
  | none =>
    rw [readAll_of_none hread] at hs
    exact absurd (List.append_left_eq_self.mp hs) hne
  | some rest =>
    rw [advances_reference.readAll_of_some hread] at hs
    obtain ⟨reference, back, href, htext, hlast, rfl⟩ := behindReference_eq_some_iff.mp hread
    obtain ⟨line, hof, hline⟩ := exists_dropLineWhile isSpaceOrTab back
    obtain ⟨more, hmore⟩ : t <:+ dropLineWhile isSpaceOrTab back :=
      hs ▸ advances_reference.readAll_suffix _
    rw [← hmore] at hline hs
    rw [hline] at htext hlast hmore
    have hsealed := (dropLineWhile_append_iff isSpaceOrTab_of_isLineBreak hof).mp hmore.symm
    rw [← List.append_assoc, ← List.append_assoc] at htext
    refine ⟨reference, line, more, ?_, ⟨href, hof, hlast, hsealed⟩, hs⟩
    rw [List.append_cancel_right htext, List.append_assoc]

theorem TakenOff.of_more (h : TakenOff reference line (more ++ t))
    (hmore : readAll behindReference (more ++ t) = t) (hne : more ≠ []) (u : Text) :
    TakenOff reference line (more ++ u) where
  isReference := h.isReference
  isLine := h.isLine
  isLast := by
    have hlast := h.isLast
    rw [infix_firstLine_append_iff h.isLine, not_and] at hlast ⊢
    intro hopen hu
    obtain ⟨next, line', more, rfl, hnext, -⟩ := exists_takenOff hmore hne
    have hcloses : "/>".toList <:+: next ++ (line' ++ more) :=
      hnext.isReference.infix_bracket.trans (List.prefix_append _ _).isInfix
    exact hlast hopen (infix_firstLine_of_closes hcloses hu t)
  isSealed := by
    have hhead : (more ++ t).head? = (more ++ u).head? := by
      rw [List.head?_append_of_ne_nil _ hne, List.head?_append_of_ne_nil _ hne]
    exact (sealed_of_head? hhead).mp h.isSealed

section Last

variable (href : IsReference reference) (hof : IsLineOf isSpaceOrTab line)
include href hof

theorem length_readAll_lt (hcloses : "/>".toList <:+: (line ++ u).firstLine) :
    (readAll behindReference (reference ++ (line ++ u))).length < u.length := by
  obtain ⟨hopen, hu⟩ := (infix_firstLine_append_iff hof).mp hcloses
  obtain ⟨rest, hrest⟩ := exists_behindBracket hu
  obtain ⟨front, back, rfl, hfront, hlast, rfl⟩ := behindBracket_eq_some_iff.mp hrest
  have hlonger : IsReference (reference ++ (line ++ front) ++ "/>".toList) :=
    href.append fun c hc =>
      (List.mem_append.mp hc).elim (unbroken_of_isLineOf hof hopen c) (hfront c)
  have hread : behindReference (reference ++ (line ++ (front ++ ("/>".toList ++ back)))) =
      some (dropLineWhile isSpaceOrTab back) :=
    behindReference_eq_some_iff.mpr ⟨_, back, hlonger, by simp, hlast, rfl⟩
  have hle := ((advances_reference.readAll_suffix _).trans
    (dropLineWhile_suffix isSpaceOrTab back)).length_le
  rw [advances_reference.readAll_of_some hread]
  simp only [List.length_append]
  exact Nat.lt_of_le_of_lt hle (by simp; omega)

theorem readAll_lastReference_iff : readAll behindReference (reference ++ (line ++ u)) = u ↔
    TakenOff reference line u ∧ behindReference u = none := by
  by_cases hcloses : "/>".toList <:+: (line ++ u).firstLine
  · refine iff_of_false (fun hall => ?_) fun h => h.1.isLast hcloses
    have hlt := length_readAll_lt href hof hcloses
    rw [hall] at hlt
    exact lt_irrefl _ hlt
  · have hread : behindReference (reference ++ (line ++ u)) =
        some (dropLineWhile isSpaceOrTab (line ++ u)) :=
      behindReference_eq_some_iff.mpr ⟨reference, _, href, rfl, hcloses, rfl⟩
    have hsuffix := dropLineWhile_append_suffix isSpaceOrTab_of_isLineBreak hof u
    rw [advances_reference.readAll_of_some hread,
      advances_reference.readAll_eq_iff_of_suffix hsuffix,
      dropLineWhile_append_iff isSpaceOrTab_of_isLineBreak hof]
    exact and_congr_left' ⟨fun h => ⟨href, hof, hcloses, h⟩, TakenOff.isSealed⟩

end Last

/-- References are taken off and no more exactly if no other one comes next, and the line of the
last one is ended, or it is sealed and no bracket is closed in what follows of it. -/
theorem readAll_references_append_iff (hs : readAll behindReference (s ++ t) = t) :
    readAll behindReference (s ++ u) = u ↔
      (s = [] ∨ EndsLine s u ∨ Sealed isSpaceOrTab s u ∧ ¬ "/>".toList <:+: u.firstLine) ∧
        ∀ reference, IsReference reference → ¬ reference <+: u := by
  rw [← behindReference_eq_none_iff]
  induction hlen : s.length using Nat.strongRecOn generalizing s with
  | ind n ih =>
    by_cases hne : s = []
    · rw [hne, List.nil_append, advances_reference.readAll_eq_self_iff]
      simp
    · obtain ⟨reference, line, more, rfl, htaken, hmore⟩ := exists_takenOff hs hne
      have href := htaken.isReference
      rw [or_iff_right hne]
      by_cases hlast : more = []
      · have htakenIff : TakenOff reference line u ↔
            Sealed isSpaceOrTab line u ∧ ¬ "/>".toList <:+: (line ++ u).firstLine :=
          ⟨fun h => ⟨h.isSealed, h.isLast⟩, fun h => ⟨href, htaken.isLine, h.2, h.1⟩⟩
        rw [hlast, List.append_nil, List.append_assoc,
          readAll_lastReference_iff href htaken.isLine, htakenIff,
          infix_firstLine_append_iff htaken.isLine, endsLine_append href.endsOpen,
          sealed_append href.endsOpen, Sealed, EndsLine]
        tauto
      · have hshorter : more.length < n := by
          have hpos := List.length_pos_iff.mpr href.ne_nil
          rw [← hlen]
          simp only [List.length_append]
          omega
        have hgetLast : (reference ++ (line ++ more)).getLast? = more.getLast? := by
          rw [← List.append_assoc, List.getLast?_append_of_ne_nil _ hlast]
        rw [List.append_assoc, List.append_assoc, advances_reference.readAll_of_some
            (htaken.of_more hmore hlast u).behindReference_eq, ih _ hshorter hmore rfl,
          or_iff_right hlast, endsLine_of_getLast? hgetLast, sealed_of_getLast? hgetLast]

end TakenOff

end References

namespace Preamble

/-- The tokens of comments in the languages of a preamble. -/
def commentTokens : Preamble → List Text
  | interpreterLine => ["#".toList]
  | scriptTag => ["//".toList, "/*".toList]
  | markupProlog => ["<!--".toList]
  | referenceLines => ["//".toList, "/*".toList]

/-- A preamble `s` ends in front of `u`: the rest of its last line is sealed there, and what follows
is not read as another part of it. -/
def EndsBefore : Preamble → Text → Text → Prop
  | interpreterLine, s, u => if s = [] then ¬ "#!".toList <+: u else EndsLine s u
  | scriptTag, s, u => s = [] ∨ Sealed isSpaceOrTab s u
  | markupProlog, s, u => Sealed isSpaceOrTab s u
  | referenceLines, s, u =>
    (s = [] ∨ EndsLine s u ∨ Sealed isSpaceOrTab s u ∧ ¬ "/>".toList <:+: u.firstLine) ∧
      ∀ reference, IsReference reference → ¬ reference <+: u

theorem sealed_unbroken_iff (hu : u ≠ []) : Sealed (!isLineBreak ·) s u ↔ EndsLine s u := by
  obtain ⟨c, u, rfl⟩ := List.exists_cons_of_ne_nil hu
  rw [Sealed, or_iff_left]
  rintro ⟨-, hhead⟩
  simpa using hhead c rfl

/-- In front of a comment the expression takes off what it takes off in front of another text
exactly if that ends there. -/
theorem drop_append_iff (kind : Preamble) (hs : kind.drop (s ++ t) = t)
    (hu : ∃ token ∈ kind.commentTokens, token <+: trimStart u) :
    kind.drop (s ++ u) = u ↔ kind.EndsBefore s u := by
  obtain ⟨token, htoken, hstart⟩ := hu
  cases kind with
  | interpreterLine =>
    have hne : u ≠ [] := by
      rintro rfl
      obtain rfl := List.prefix_nil.mp hstart
      simp [commentTokens] at htoken
    have htag := behindTag_append_iff (u := u) (by decide) (by rintro c ⟨⟩; rfl) (by simp) hs
    rwa [sealed_unbroken_iff hne] at htag
  | scriptTag =>
    have htag := behindTag_append_iff (u := u) (by decide) (by rintro c ⟨⟩; rfl)
      isSpaceOrTab_of_isLineBreak hs
    have hno : ¬ "<?php".toList <+: u := by
      rintro ⟨rest, rfl⟩
      rw [show trimStart ("<?php".toList ++ rest) = "<?php".toList ++ rest from
        trimStart_cons (by decide) _] at hstart
      simp only [commentTokens, List.mem_cons, List.not_mem_nil, or_false] at htoken
      rcases htoken with rfl | rfl <;> simp at hstart
    refine htag.trans ?_
    rw [EndsBefore]
    split
    · rename_i hnil
      exact iff_of_true hno (.inl hnil)
    · rename_i hne
      rw [or_iff_right hne]
  | markupProlog =>
    obtain rfl : token = "<!--".toList := by simpa [commentTokens] using htoken
    exact dropMarkup_append_iff hs hstart
  | referenceLines =>
    rw [drop_referenceLines] at hs ⊢
    exact readAll_references_append_iff hs

end Preamble

theorem regions_of_skip_builtIn : ∀ l ∈ builtIn, ∀ e ∈ l.skip,
    l.grammar.regionStart = none ∧ l.grammar.regionEnd = none := by decide

theorem commentTokens_builtIn {l : Language} {kind : Preamble} (hl : l ∈ builtIn)
    (h : l.skip = some kind.expression) : l.grammar.commentTokens = kind.commentTokens := by
  have hall : ∀ l ∈ builtIn, l.skip = some kind.expression →
      l.grammar.commentTokens = kind.commentTokens := by cases kind <;> decide
  exact hall l hl h

end Masthead.Language
