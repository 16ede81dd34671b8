import Mathlib
import Masthead.Proofs.Comment.LastLine
import Masthead.Proofs.Comment.Shape

/-!
# What a leading comment is made of

A leading comment is items with blanks between them. Its regions are balanced, outside of them no
blank line separates two items, and behind the last item it ends with a blank line at the latest.
-/
namespace Masthead
open Text

namespace LineEnding

variable {s t : Text}

theorem endings_unbroken_append (h : ∀ c ∈ s, isLineBreak c = false) (t : Text) :
    endings (s ++ t) = endings t := by
  induction s with
  | nil => rfl
  | cons c s ih =>
    rw [List.cons_append, endings_cons (h c (by simp))]
    exact ih fun d hd => h d (List.mem_cons_of_mem _ hd)

theorem endings_append_of_unbroken (h : ∀ c ∈ s, isLineBreak c = false) :
    endings (t ++ s) = endings t := by
  induction t using endings_induction with
  | nil => simpa using endings_unbroken_append h []
  | crlf t ih => simp [ih]
  | lf t ih => simp [ih]
  | cons c t hc ih => rw [List.cons_append, endings_cons hc, endings_cons hc, ih]
  | cr t hhead ih =>
    have hmore : (t ++ s).head? ≠ some '\n' := by
      cases t with
      | nil =>
        intro hlf
        have := h '\n' (List.mem_of_mem_head? hlf)
        simp [isLineBreak] at this
      | cons => simpa using hhead
    rw [List.cons_append, endings_cr_cons hmore, endings_cr_cons hhead, ih]

end LineEnding

namespace Comment
open LineEnding

section Blanks

variable {blanks : Text}

theorem length_endings_le_one (hb : blanks.isAllBlank) (h : ¬ HoldsBlankLine blanks) :
    (endings blanks).length ≤ 1 := by
  obtain ⟨missing, hne, hread⟩ := takeBlanks_eq_of_not_holdsBlankLine hb h
  have hcount := missing_add_endings 2 blanks
  rw [hread] at hcount
  simp only at hcount
  omega

theorem isLineBreak_eq_false_of_isIndent {c : Char} (h : isIndent c) : isLineBreak c = false := by
  simp only [isIndent, Bool.and_eq_true] at h
  simpa using h.2

theorem endings_dropIndent (t : Text) : endings (dropIndent t) = endings t := by
  obtain ⟨indent, ht, hindent⟩ := exists_eq_dropIndent_append t
  conv_rhs => rw [ht]
  rw [endings_append_of_unbroken fun c hc => isLineBreak_eq_false_of_isIndent (hindent c hc)]

theorem dropIndent_append_indent {s indent : Text} (h : ∀ c ∈ indent, isIndent c) :
    dropIndent (s ++ indent) = dropIndent s := by
  induction indent using List.reverseRecOn with
  | nil => rw [List.append_nil]
  | append_singleton indent c ih =>
    rw [← List.append_assoc, dropIndent_eq_rdropWhile, List.rdropWhile_concat, if_pos (h c (by simp)),
      ← dropIndent_eq_rdropWhile]
    exact ih fun d hd => h d (by simp [hd])

theorem dropIndent_of_not_isIndent {s : Text} {c : Char} (hs : s.getLast? = some c)
    (hc : isIndent c = false) : dropIndent s = s := by
  obtain ⟨s, rfl⟩ := List.getLast?_eq_some_iff.mp hs
  rw [dropIndent_eq_rdropWhile, List.rdropWhile_concat, if_neg (by simp [hc])]

theorem dropIndent_append_of_ne_nil {s t : Text} (h : dropIndent t ≠ []) :
    dropIndent (s ++ t) = s ++ dropIndent t := by
  obtain ⟨indent, ht, hindent⟩ := exists_eq_dropIndent_append t
  have hlast := List.rdropWhile_last_not isIndent t h
  conv_lhs => rw [ht, ← List.append_assoc, dropIndent_append_indent hindent]
  refine dropIndent_of_not_isIndent ?_ (by simpa using hlast)
  rw [List.getLast?_append_of_ne_nil _ h]
  exact List.getLast?_eq_some_getLast h

end Blanks

/-! ## Regions -/

def openings (pieces : List Piece) : Nat := pieces.countP (·.item.kind = .regionStart)

def closings (pieces : List Piece) : Nat := pieces.countP (·.item.kind = .regionEnd)

/-- Every line that closes a region has one in front of it that opens it, and no region stays
open. -/
structure Balanced (pieces : List Piece) : Prop where
  opened : ∀ front, front <+: pieces → closings front ≤ openings front
  settled : closings pieces = openings pieces

variable {g : Grammar} {p q : Place} {pieces : List Piece}

theorem depthAfter?_eq_some {kind : ItemKind} {depth next : Nat}
    (h : kind.depthAfter? depth = some next) :
    depth + (if kind = .regionStart then 1 else 0) = next + (if kind = .regionEnd then 1 else 0) := by
  cases kind with
  | lineComment => simpa [ItemKind.depthAfter?] using h
  | blockComment => simpa [ItemKind.depthAfter?] using h
  | regionStart => simpa [ItemKind.depthAfter?] using h
  | regionEnd =>
    cases depth with
    | zero => simp [ItemKind.depthAfter?] at h
    | succ depth => simpa [ItemKind.depthAfter?] using h

theorem Steps.depth_add (h : Steps g p pieces q) :
    p.depth + openings pieces = q.depth + closings pieces := by
  induction h with
  | nil => rfl
  | cons step _ ih =>
    have hstep := depthAfter?_eq_some step.depth
    simp only [openings, closings, List.countP_cons, decide_eq_true_eq] at ih ⊢
    omega

theorem Steps.opened (h : Steps g p pieces q) (hp : p.depth = 0) (front : List Piece)
    (hfront : front <+: pieces) : closings front ≤ openings front := by
  obtain ⟨back, rfl⟩ := hfront
  obtain ⟨middle, hsteps, -⟩ := h.split
  have := hsteps.depth_add
  omega

theorem Steps.balanced (h : Steps g p pieces q) (hp : p.depth = 0) (hq : q.depth = 0) :
    Balanced pieces where
  opened := h.opened hp
  settled := by
    have := h.depth_add
    omega

theorem closed_take {depth n : Nat} (h : closedCount? depth pieces = some n) :
    Closed depth (pieces.take n) := by
  induction pieces generalizing depth n with
  | nil =>
    simp only [closedCount?, Option.ite_none_right_eq_some, Option.some.injEq] at h
    simp [Closed, closedCount?, h.1]
  | cons piece pieces ih =>
    simp only [closedCount?] at h
    split at h
    · rename_i m hm
      obtain ⟨next, hnext, hcount⟩ := Option.bind_eq_some_iff.mp hm
      obtain rfl := Option.some.inj h
      exact closed_cons_iff.mpr ⟨next, hnext, ih hcount⟩
    · simp only [Option.ite_none_right_eq_some, Option.some.injEq] at h
      obtain ⟨rfl, rfl⟩ := h
      rfl

/-! ## Items and blanks -/

/-- The blanks behind the last item: less than a blank line, or up to its end. -/
structure LastBlanks (last : Text) : Prop where
  blank : last.isAllBlank
  breaks : (endings last).length ≤ 2
  ends : (endings last).length = 2 → ∃ c ∈ last.getLast?, isLineBreak c

/-- How a comment, with `rest` behind it, is made of pieces and of the blanks `last`. -/
structure MadeOf (g : Grammar) (comment rest : Text) (pieces : List Piece) (last : Text) : Prop where
  text : comment = piecesText pieces ++ last
  ne_nil : pieces ≠ []
  blank : ∀ piece ∈ pieces, piece.blanks.isAllBlank
  written : ∀ front piece back, pieces = front ++ piece :: back →
    piece.item.WrittenBefore g (piecesText back ++ last ++ rest)
  balanced : Balanced pieces
  /-- Outside of regions an item comes at the latest in the next line. -/
  gap : ∀ front piece back, pieces = front ++ piece :: back → front ≠ [] →
    openings front = closings front → (endings piece.blanks).length ≤ 1
  ending : LastBlanks last

theorem LastBlanks.of_not_holdsBlankLine {blanks : Text} (hb : blanks.isAllBlank)
    (h : ¬ HoldsBlankLine blanks) : LastBlanks blanks := by
  have hone := length_endings_le_one hb h
  exact ⟨hb, by omega, fun htwo => by omega⟩

theorem LastBlanks.dropIndent {blanks : Text} (hb : blanks.isAllBlank)
    (h : ¬ HoldsBlankLine blanks) : LastBlanks (dropIndent blanks) := by
  have hone := length_endings_le_one hb h
  rw [← endings_dropIndent] at hone
  exact ⟨by rwa [isAllBlank_dropIndent], by omega, fun htwo => by omega⟩

theorem LastBlanks.of_takeBlanks {t blanks rest : Text} (h : takeBlanks 2 t = (blanks, rest, 0)) :
    LastBlanks blanks := by
  have hblank := isAllBlank_takeBlanks 2 t
  have hcount := missing_add_endings 2 t
  have hnone : (takeBlanks 2 t).2.2 = 0 := by rw [h]
  obtain ⟨c, hc, hbreak⟩ := takeBlanks_getLast? (by decide) hnone
  rw [h] at hblank hcount hc
  simp only at hcount
  exact ⟨hblank, by omega, fun _ => ⟨c, hc, hbreak⟩⟩

theorem Step.writtenBefore {piece : Piece} (h : Step g p piece q) :
    piece.item.WrittenBefore g q.text := writtenBefore_of_readItem h.item

theorem Steps.blank (h : Steps g p pieces q) : ∀ piece ∈ pieces, piece.blanks.isAllBlank := by
  induction h with
  | nil => simp
  | cons step _ ih =>
    intro piece hpiece
    rcases List.mem_cons.mp hpiece with rfl | hpiece
    · exact step.blank
    · exact ih piece hpiece

theorem Steps.written (h : Steps g p pieces q) (front : List Piece) (piece : Piece)
    (back : List Piece) (hpieces : pieces = front ++ piece :: back) :
    piece.item.WrittenBefore g (piecesText back ++ q.text) := by
  subst hpieces
  obtain ⟨middle, -, hback⟩ := h.split
  cases hback with
  | cons step steps =>
    rw [← steps.text]
    exact step.writtenBefore

/-- Behind an item a blank line ends the scan where no region is open. -/
theorem Steps.watches (h : Steps g p pieces q) (hp : p.depth = 0) (hne : pieces ≠ [])
    (hclosed : openings pieces = closings pieces) : q.watches := by
  have hdepth := h.depth_add
  have hq : q.depth = 0 := by omega
  simp [Place.watches, h.started hne, hq]

theorem Steps.gap (h : Steps g p pieces q) (hp : p.depth = 0) (front : List Piece) (piece : Piece)
    (back : List Piece) (hpieces : pieces = front ++ piece :: back) (hfront : front ≠ [])
    (hclosed : openings front = closings front) : (endings piece.blanks).length ≤ 1 := by
  subst hpieces
  obtain ⟨middle, hsteps, hback⟩ := h.split
  cases hback with
  | cons step _ => exact length_endings_le_one step.blank (step.gap (hsteps.watches hp hfront hclosed))

theorem Steps.madeOf (h : Steps g p pieces q) (hp : p.depth = 0) (hq : q.depth = 0)
    (hne : pieces ≠ []) {last rest : Text} (ht : q.text = last ++ rest) (hlast : LastBlanks last) :
    MadeOf g (piecesText pieces ++ last) rest pieces last where
  text := rfl
  ne_nil := hne
  blank := h.blank
  written := by
    intro front piece back hpieces
    rw [List.append_assoc, ← ht]
    exact h.written front piece back hpieces
  balanced := h.balanced hp hq
  gap := h.gap hp
  ending := hlast

theorem isIndent_getLast?_item (hg : g.ClosesPlainly) {item : Item} {behind : Text} {c d : Char}
    (h : item.WrittenBefore g behind) (hbehind : behind.head? = some d)
    (hd : isLineBreak d = false) (hc : item.text.getLast? = some c) : isIndent c = false := by
  have hline : ¬ FillsLine item.text behind := by
    intro hfills
    simpa [hd] using hfills.2 d hbehind
  unfold Item.WrittenBefore at h
  split at h
  · exact absurd h.2 hline
  · obtain ⟨opener, closer, inner, hblock, htext, -⟩ := h
    rw [htext, List.getLast?_append_of_ne_nil _ closer.ne_nil] at hc
    have := hg (opener, closer) hblock c (List.mem_of_getLast? hc)
    simp [isIndent, this]
  · exact absurd h.2 hline
  · exact absurd h.2 hline

theorem Steps.dropIndent_append (hg : g.ClosesPlainly) (h : Steps g p pieces q) (hne : pieces ≠ [])
    {blanks core : Text} (ht : q.text = blanks ++ core) (hcore : core.trimStart = core)
    (hcorene : core ≠ []) :
    dropIndent (piecesText pieces ++ blanks) = piecesText pieces ++ dropIndent blanks := by
  by_cases hnil : dropIndent blanks = []
  · have hindent := dropIndent_eq_nil_iff.mp hnil
    obtain ⟨d, hd, hbreak⟩ : ∃ d, q.text.head? = some d ∧ isLineBreak d = false := by
      cases blanks with
      | nil =>
        obtain ⟨d, core, rfl⟩ := List.exists_cons_of_ne_nil hcorene
        exact ⟨d, by simp [ht],
          isLineBreak_eq_false_of_isBlank_eq_false (isBlank_head_trimStart hcore)⟩
      | cons d blanks =>
        exact ⟨d, by simp [ht], isLineBreak_eq_false_of_isIndent (hindent d (by simp))⟩
    obtain ⟨init, last, rfl⟩ := (List.eq_nil_or_concat' pieces).resolve_left hne
    obtain ⟨middle, -, hlast⟩ := h.split
    cases hlast with
    | cons step steps =>
      cases steps
      have hitem := (Grammar.readItem_eq_item step.item).2
      obtain ⟨c, hc⟩ := Option.isSome_iff_exists.mp (List.getLast?_isSome.mpr hitem)
      have hplain := isIndent_getLast?_item hg step.writtenBefore hd hbreak hc
      rw [dropIndent_append_indent hindent, hnil, List.append_nil]
      refine dropIndent_of_not_isIndent ?_ hplain
      have htext : piecesText (init ++ [last]) =
          piecesText init ++ last.blanks ++ last.item.text := by simp [piecesText, Piece.text]
      rw [htext, List.getLast?_append_of_ne_nil _ hitem, hc]
  · exact dropIndent_append_of_ne_nil hnil

/-- Pieces that leave no region open stand in front of text that is not read as an item. -/
theorem Steps.madeOf_dropIndent (hg : g.ClosesPlainly) (h : Steps g p pieces q) (hp : p.depth = 0)
    (hq : q.depth = 0) (hne : pieces ≠ []) {blanks core : Text} (ht : q.text = blanks ++ core)
    (hb : blanks.isAllBlank) (hline : ¬ HoldsBlankLine blanks) (hcore : core.trimStart = core)
    (hcorene : core ≠ []) :
    ∃ last rest, p.text = dropIndent (piecesText pieces ++ blanks) ++ rest ∧
      MadeOf g (dropIndent (piecesText pieces ++ blanks)) rest pieces last := by
  obtain ⟨indent, hindent, -⟩ := exists_eq_dropIndent_append blanks
  have hbehind : q.text = dropIndent blanks ++ (indent ++ core) := by
    rw [ht, ← List.append_assoc, ← hindent]
  refine ⟨dropIndent blanks, indent ++ core, ?_, ?_⟩
  · rw [h.dropIndent_append hg hne ht hcore hcorene, h.text, hbehind, List.append_assoc]
  · rw [h.dropIndent_append hg hne ht hcore hcorene]
    exact h.madeOf hp hq hne hbehind (.dropIndent hb hline)

/-- Where all pieces count, the comment goes on into the blanks behind them. -/
theorem exists_madeOf_of_closed (hg : g.ClosesPlainly) {s : Scan} (hsteps : Steps g p s.pieces q)
    (hhalt : Halts g q s.blanks s.stop) (hp : p.depth = 0) (hq : q.depth = 0)
    (hne : s.pieces ≠ []) :
    ∃ pieces last rest, p.text = s.found s.pieces.length ++ rest ∧
      MadeOf g (s.found s.pieces.length) rest pieces last := by
  have hwatches : q.watches := by simp [Place.watches, hsteps.started hne, hq]
  rw [Scan.found_of_length_le le_rfl, Scan.text]
  cases hstop : s.stop with
  | endOfText =>
    rw [hstop] at hhalt
    obtain ⟨htext, hb, hline⟩ := hhalt
    have hbehind : q.text = s.blanks ++ [] := by rw [htext, List.append_nil]
    refine ⟨s.pieces, s.blanks, [], ?_, ?_⟩
    · rw [if_neg (by decide), hsteps.text, htext, List.append_nil]
    · rw [if_neg (by decide)]
      exact hsteps.madeOf hp hq hne hbehind (.of_not_holdsBlankLine hb (hline hwatches))
  | blankLine =>
    rw [hstop] at hhalt
    obtain ⟨-, rest, hread⟩ := hhalt
    have hbehind : q.text = s.blanks ++ rest := by
      have := takeBlanks_append 2 q.text
      rw [hread] at this
      exact this.symm
    refine ⟨s.pieces, s.blanks, rest, ?_, ?_⟩
    · rw [if_neg (by decide), hsteps.text, hbehind, List.append_assoc]
    · rw [if_neg (by decide)]
      exact hsteps.madeOf hp hq hne hbehind (.of_takeBlanks hread)
  | otherText =>
    rw [hstop] at hhalt
    obtain ⟨front, htext, hb, hline, hcore, hfront, -⟩ := hhalt
    rw [if_pos rfl]
    exact ⟨s.pieces,
      hsteps.madeOf_dropIndent hg hp hq hne htext hb (hline hwatches) hcore hfront⟩

/-- A leading comment is made of items with blanks between them. -/
theorem exists_madeOf (hg : g.ClosesPlainly) {t comment : Text} (h : g.leading t = .ok comment)
    (hne : comment ≠ []) :
    ∃ pieces last rest, t = comment ++ rest ∧ MadeOf g comment rest pieces last := by
  obtain ⟨s, q, hsteps, hhalt, rfl⟩ := leading_eq_ok_iff.mp h
  obtain ⟨n, hn⟩ := exists_closedCount?_zero s.pieces
  have hpos : n ≠ 0 := mt (Scan.leading_eq_nil_iff hsteps hn).mpr hne
  rw [Scan.leading_eq hsteps hn, if_neg hpos]
  have hclosed := closed_take hn
  cases hdrop : s.pieces.drop n with
  | nil =>
    have hle := List.drop_eq_nil_iff.mp hdrop
    obtain rfl := (closedCount?_le hn).antisymm hle
    rw [List.take_length] at hclosed
    have hpieces : s.pieces ≠ [] := mt List.length_eq_zero_iff.mpr hpos
    exact exists_madeOf_of_closed hg hsteps hhalt rfl (hsteps.depth_eq_zero hclosed) hpieces
  | cons opening more =>
    obtain ⟨middle, hfront, hback⟩ := (List.take_append_drop n s.pieces ▸ hsteps).split
    have hdepth := hfront.depth_eq_zero hclosed
    have hpieces : s.pieces.take n ≠ [] := by
      intro hnil
      rcases List.take_eq_nil_iff.mp hnil with h0 | hnil
      · exact hpos h0
      · simp [hnil] at hdrop
    have hwatches : middle.watches := by simp [Place.watches, hfront.started hpieces, hdepth]
    rw [Scan.found_of_drop hdrop]
    rw [hdrop] at hback
    cases hback with
    | @cons _ after _ _ _ step steps =>
      have hbehind : middle.text = opening.blanks ++ (opening.item.text ++ after.text) := by
        rw [step.text, Piece.text, List.append_assoc]
      exact ⟨_, hfront.madeOf_dropIndent hg rfl hdepth hpieces hbehind step.blank
        (step.gap hwatches) step.core.1 step.core.2⟩

/-- A grammar with line and block comments and regions. -/
def regionGrammar : Grammar where
  line := some ⟨"//".toList, by decide⟩
  block := some (⟨"/*".toList, by decide⟩, ⟨"*/".toList, by decide⟩)
  regionStart := some ⟨"#region".toList, by decide⟩
  regionEnd := some ⟨"#endregion".toList, by decide⟩

theorem closesPlainly_regionGrammar : regionGrammar.ClosesPlainly := by
  intro pair hpair
  obtain rfl := Option.some.inj hpair
  exact eq_false_of_not_any (by decide)

/-- A comment with a region that holds a blank line, in front of a region that stays open. -/
theorem exists_madeOf_regionGrammar :
    regionGrammar.leading "// a\n#region b\n\n/* c */\n#end region\n  #region d\ncode".toList =
        .ok "// a\n#region b\n\n/* c */\n#end region\n".toList ∧
      ∃ pieces last rest,
        "// a\n#region b\n\n/* c */\n#end region\n  #region d\ncode".toList =
          "// a\n#region b\n\n/* c */\n#end region\n".toList ++ rest ∧
        MadeOf regionGrammar "// a\n#region b\n\n/* c */\n#end region\n".toList rest pieces last := by
  have hleading : regionGrammar.leading
      "// a\n#region b\n\n/* c */\n#end region\n  #region d\ncode".toList =
      .ok "// a\n#region b\n\n/* c */\n#end region\n".toList := by cbv
  exact ⟨hleading, exists_madeOf closesPlainly_regionGrammar hleading (by decide)⟩

end Comment
end Masthead
