import Masthead.Proofs.Comment.Shape

namespace Masthead
open Text

namespace LineEnding

/-- The text behind the line ending at its front, if there is one. -/
def dropFront (t : Text) : Text :=
  match atFront? t with
  | some (_, rest) => rest
  | none => t

theorem isLineBreak_of_atFront?_eq_none {t : Text} (h : atFront? t = none) :
    ∀ c ∈ t.head?, isLineBreak c = false := by
  unfold atFront? at h
  split at h <;> try contradiction
  rename_i hpair hcr hlf
  intro c hc
  obtain ⟨rest, rfl⟩ := List.head?_eq_some_iff.mp hc
  simp only [isLineBreak, Bool.or_eq_false_iff, beq_eq_false_iff_ne]
  exact ⟨fun heq => hcr rest (by rw [heq]), fun heq => hlf rest (by rw [heq])⟩

theorem dropFront_cases (t : Text) :
    dropFront t = t ∧ (∀ c ∈ t.head?, isLineBreak c = false) ∨
      ∃ e : LineEnding, t = e.text ++ dropFront t := by
  unfold dropFront
  split
  · rename_i e rest h
    exact .inr ⟨e, eq_append_of_atFront?_eq_some h⟩
  · rename_i h
    exact .inl ⟨rfl, isLineBreak_of_atFront?_eq_none h⟩

theorem dropFront_suffix (t : Text) : dropFront t <:+ t := by
  rcases dropFront_cases t with ⟨h, -⟩ | ⟨e, h⟩
  · rw [h]
  · exact ⟨e.text, h.symm⟩

theorem dropFront_eq_self_iff {t : Text} :
    dropFront t = t ↔ ∀ c ∈ t.head?, isLineBreak c = false := by
  rcases dropFront_cases t with ⟨h, hhead⟩ | ⟨e, h⟩
  · simpa [h] using hhead
  · obtain ⟨c, rest, htext, hc, -⟩ := e.exists_text_eq_cons
    rw [htext] at h
    have hne : dropFront t ≠ t := by
      intro heq
      rw [heq] at h
      have := congrArg List.length h
      simp at this
      omega
    refine iff_of_false hne fun hall => ?_
    have := hall c (by rw [h]; rfl)
    simp [hc] at this

theorem dropFront_text_append_iff {e : LineEnding} {t : Text} :
    dropFront (e.text ++ t) = t ↔ ¬ (e = .cr ∧ t.head? = some '\n') := by
  cases e with
  | crlf => simp [dropFront, atFront?, LineEnding.text]
  | lf => simp [dropFront, atFront?, LineEnding.text]
  | cr =>
    cases t with
    | nil => simp [dropFront, atFront?, LineEnding.text]
    | cons c t =>
      by_cases hc : c = '\n'
      · subst hc
        simp [dropFront, atFront?, LineEnding.text]
      · simp [dropFront, atFront?, LineEnding.text, hc]

theorem dropFront_text_append_suffix (e : LineEnding) (t : Text) :
    dropFront (e.text ++ t) <:+ t := by
  by_cases h : e = .cr ∧ t.head? = some '\n'
  · obtain ⟨rfl, hlf⟩ := h
    obtain ⟨rest, rfl⟩ := List.head?_eq_some_iff.mp hlf
    exact List.suffix_cons _ _
  · rw [dropFront_text_append_iff.mpr h]

end LineEnding

def isSpaceOrTab (c : Char) : Bool := c == ' ' || c == '\t'

theorem isLineBreak_of_isSpaceOrTab {c : Char} (h : isSpaceOrTab c) : isLineBreak c = false :=
  Comment.isLineBreak_of_space_or_tab (by simpa [isSpaceOrTab] using h)

theorem isSpaceOrTab_of_isLineBreak (c : Char) (h : isLineBreak c) : isSpaceOrTab c = false := by
  rcases eq_cr_or_eq_lf h with rfl | rfl <;> rfl

namespace Text

variable {p : Char → Bool} {s s' t u : Text}

section Ends

def EndsOpen (s : Text) : Prop := ∀ c ∈ s.getLast?, isLineBreak c = false

instance : DecidablePred EndsOpen := fun s => Option.decidableForallMem s.getLast?

/-- The first text ends with a line ending, and the second one does not make it longer. -/
def EndsLine (s t : Text) : Prop := ¬ EndsOpen s ∧ ¬ CutsPair s t

/-- The first text ends with a line ending that the second one does not make longer, or it is open
and the second one starts with another character than those satisfying `p` and line breaks. -/
def Sealed (p : Char → Bool) (s t : Text) : Prop :=
  EndsLine s t ∨ EndsOpen s ∧ ∀ c ∈ t.head?, p c = false ∧ isLineBreak c = false

theorem endsOpen_of_unbroken (h : ∀ c ∈ s, isLineBreak c = false) : EndsOpen s :=
  fun c hc => h c (List.mem_of_getLast? hc)

theorem not_endsOpen_append_text (s : Text) (e : LineEnding) : ¬ EndsOpen (s ++ e.text) := by
  obtain ⟨c, hc, hbreak⟩ := e.exists_getLast?_text
  intro hopen
  rw [EndsOpen, List.getLast?_append_of_ne_nil _ e.text_ne_nil, hc] at hopen
  simp [hopen c rfl] at hbreak

theorem endsLine_of_getLast? (h : s.getLast? = s'.getLast?) : EndsLine s t ↔ EndsLine s' t := by
  rw [EndsLine, EndsLine, EndsOpen, EndsOpen, CutsPair, CutsPair, h]

theorem sealed_of_getLast? (h : s.getLast? = s'.getLast?) : Sealed p s t ↔ Sealed p s' t := by
  rw [Sealed, Sealed, endsLine_of_getLast? h, EndsOpen, EndsOpen, h]

theorem sealed_of_head? (h : t.head? = u.head?) : Sealed p s t ↔ Sealed p s u := by
  rw [Sealed, Sealed, EndsLine, EndsLine, CutsPair, CutsPair, h]

section Append

variable {front : Text} (h : EndsOpen front)
include h

theorem endsLine_append : EndsLine (front ++ s) t ↔ EndsLine s t := by
  by_cases hs : s = []
  · rw [hs, List.append_nil]
    exact iff_of_false (fun hends => hends.1 h) fun hends => hends.1 (by simp [EndsOpen])
  · exact endsLine_of_getLast? (List.getLast?_append_of_ne_nil _ hs)

theorem sealed_append : Sealed p (front ++ s) t ↔ Sealed p s t := by
  by_cases hs : s = []
  · have hnil : EndsOpen [] := by simp [EndsOpen]
    rw [Sealed, Sealed, endsLine_append h, hs, List.append_nil, and_iff_right h,
      and_iff_right hnil]
  · exact sealed_of_getLast? (List.getLast?_append_of_ne_nil _ hs)

end Append

end Ends

section DropLineWhile

/-- The text behind characters satisfying `p` and a line ending, if one comes next. -/
def dropLineWhile (p : Char → Bool) (t : Text) : Text := LineEnding.dropFront (t.dropWhile p)

/-- Characters satisfying `p`, with or without a line ending behind them. -/
inductive IsLineOf (p : Char → Bool) : Text → Prop
  | unended {line : Text} (h : ∀ c ∈ line, p c) : IsLineOf p line
  | ended {line : Text} (h : ∀ c ∈ line, p c) (e : LineEnding) : IsLineOf p (line ++ e.text)

theorem dropLineWhile_suffix (p : Char → Bool) (t : Text) : dropLineWhile p t <:+ t :=
  (LineEnding.dropFront_suffix _).trans (List.dropWhile_suffix p)

theorem exists_dropLineWhile (p : Char → Bool) (t : Text) :
    ∃ s, IsLineOf p s ∧ t = s ++ dropLineWhile p t := by
  have htake : ∀ c ∈ t.takeWhile p, p c := fun c => List.mem_takeWhile_imp
  have hparts : t.takeWhile p ++ t.dropWhile p = t := List.takeWhile_append_dropWhile
  rcases LineEnding.dropFront_cases (t.dropWhile p) with ⟨h, -⟩ | ⟨e, h⟩
  · exact ⟨_, .unended htake, by rw [dropLineWhile, h, hparts]⟩
  · refine ⟨_, .ended htake e, ?_⟩
    rw [List.append_assoc, dropLineWhile, ← h, hparts]

theorem dropLineWhile_eq_self_iff :
    dropLineWhile p t = t ↔ ∀ c ∈ t.head?, p c = false ∧ isLineBreak c = false := by
  constructor
  · intro h
    have hle := (LineEnding.dropFront_suffix (t.dropWhile p)).length_le
    rw [show LineEnding.dropFront (t.dropWhile p) = t from h] at hle
    have hdrop : t.dropWhile p = t := (List.dropWhile_suffix p).eq_of_length_le hle
    rw [dropLineWhile, hdrop, LineEnding.dropFront_eq_self_iff] at h
    exact fun c hc => ⟨head?_dropWhile p t c (by rwa [hdrop]), h c hc⟩
  · intro h
    have hdrop : t.dropWhile p = t := by
      cases t with
      | nil => rfl
      | cons c t => exact List.dropWhile_cons_of_neg (by simp [h c rfl])
    rw [dropLineWhile, hdrop, LineEnding.dropFront_eq_self_iff]
    exact fun c hc => (h c hc).2

theorem dropLineWhile_append (hs : ∀ c ∈ s, p c) (t : Text) :
    dropLineWhile p (s ++ t) = dropLineWhile p t := by
  rw [dropLineWhile, List.dropWhile_append_of_pos hs, dropLineWhile]

section Breaks

variable (hp : ∀ c, isLineBreak c → p c = false)
include hp

theorem endsOpen_of_forall (hs : ∀ c ∈ s, p c) : EndsOpen s := by
  refine endsOpen_of_unbroken fun c hc => ?_
  by_contra hbreak
  have hfails := hp c (by simpa using hbreak)
  simp [hs c hc] at hfails

theorem dropLineWhile_text_append (hs : ∀ c ∈ s, p c) (e : LineEnding) (t : Text) :
    dropLineWhile p (s ++ e.text ++ t) = LineEnding.dropFront (e.text ++ t) := by
  obtain ⟨c, rest, htext, hc, -⟩ := e.exists_text_eq_cons
  have hhead : ∀ d ∈ (e.text ++ t).head?, p d = false := by simpa [htext] using hp c hc
  rw [dropLineWhile, List.append_assoc, dropWhile_append_of_head? hs hhead]

theorem dropLineWhile_append_iff (hs : IsLineOf p s) :
    dropLineWhile p (s ++ t) = t ↔ Sealed p s t := by
  cases hs with
  | unended h =>
    have hopen := endsOpen_of_forall hp h
    rw [dropLineWhile_append h, dropLineWhile_eq_self_iff, Sealed,
      or_iff_right fun hends => hends.1 hopen, and_iff_right hopen]
  | @ended line h e =>
    have hclosed := not_endsOpen_append_text line e
    have hcuts : CutsPair (line ++ e.text) t ↔ e = .cr ∧ t.head? = some '\n' := by
      rw [CutsPair, List.getLast?_append_of_ne_nil _ e.text_ne_nil]
      cases e <;> simp [LineEnding.text]
    rw [dropLineWhile_text_append hp h, LineEnding.dropFront_text_append_iff, ← hcuts, Sealed,
      or_iff_left fun hopen => hclosed hopen.1, EndsLine, and_iff_right hclosed]

theorem dropLineWhile_append_suffix (hs : IsLineOf p s) (t : Text) :
    dropLineWhile p (s ++ t) <:+ t := by
  cases hs with
  | unended h =>
    rw [dropLineWhile_append h]
    exact dropLineWhile_suffix p t
  | ended h e =>
    rw [dropLineWhile_text_append hp h]
    exact LineEnding.dropFront_text_append_suffix e t

end Breaks

end DropLineWhile

section Indent

variable {line : Text}

theorem isAllBlank_of_isLineOf (h : IsLineOf isSpaceOrTab line) : line.isAllBlank := by
  have hindent : ∀ {s : Text}, (∀ c ∈ s, isSpaceOrTab c) → s.isAllBlank := fun h =>
    isAllBlank_iff.mpr fun c hc =>
      Comment.isBlank_of_space_or_tab (by simpa [isSpaceOrTab] using h c hc)
  cases h with
  | unended h => exact hindent h
  | ended h e => simp [hindent h]

theorem isLineBreak_of_mem (h : ∀ c ∈ line, isSpaceOrTab c) : ∀ c ∈ line, isLineBreak c = false :=
  fun c hc => isLineBreak_of_isSpaceOrTab (h c hc)

theorem unbroken_of_isLineOf (h : IsLineOf isSpaceOrTab line) (hopen : EndsOpen line) :
    ∀ c ∈ line, isLineBreak c = false := by
  cases h with
  | unended h => exact isLineBreak_of_mem h
  | ended h e => exact absurd hopen (not_endsOpen_append_text _ e)

theorem firstLine_append_of_isLineOf (h : IsLineOf isSpaceOrTab line) (t : Text) :
    EndsOpen line ∧ (line ++ t).firstLine = line ++ t.firstLine ∨
      ¬ EndsOpen line ∧ (line ++ t).firstLine.isAllBlank := by
  cases h with
  | unended h =>
    have hunbroken := isLineBreak_of_mem h
    exact .inl ⟨endsOpen_of_unbroken hunbroken, Comment.firstLine_append_of_unbroken hunbroken t⟩
  | @ended line h e =>
    obtain ⟨c, rest, htext, hc, -⟩ := e.exists_text_eq_cons
    have hfirst : (line ++ e.text ++ t).firstLine = line := by
      rw [List.append_assoc, Comment.firstLine_append_of_unbroken (isLineBreak_of_mem h), htext]
      simp [firstLine, hc]
    rw [hfirst]
    exact .inr ⟨not_endsOpen_append_text line e, isAllBlank_of_isLineOf (.unended h)⟩

end Indent

end Text
end Masthead
