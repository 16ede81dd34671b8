import Masthead.Proofs.Comment.Complete
import Masthead.Proofs.Respelling

namespace Masthead.Comment
open Text LineEnding

variable {g : Grammar} {e : LineEnding} {t : Text}

def Item.respell (e : LineEnding) (item : Item) : Item := ⟨item.kind, e.respell item.text⟩

def Piece.respell (e : LineEnding) (piece : Piece) : Piece :=
  ⟨e.respell piece.blanks, piece.item.respell e⟩

def Place.respell (e : LineEnding) (p : Place) : Place := { p with text := e.respell p.text }

theorem takeBlanks_text_append (breaks : Nat) (h : '\r' ∉ t) :
    takeBlanks (breaks + 1) (e.text ++ e.respell t) =
      (e.text ++ (takeBlanks breaks (e.respell t)).1, (takeBlanks breaks (e.respell t)).2) := by
  refine takeBlanks_ending_append ?_ breaks
  rintro rfl hlf
  exact lf_notMem_respell_cr h (List.mem_of_mem_head? hlf)

theorem takeBlanks_respell (breaks : Nat) (h : '\r' ∉ t) :
    takeBlanks breaks (e.respell t) =
      (e.respell (takeBlanks breaks t).1, e.respell (takeBlanks breaks t).2.1,
        (takeBlanks breaks t).2.2) := by
  induction t, h using respell_induction generalizing breaks with
  | nil => simp
  | lf t h ih =>
    cases breaks with
    | zero => simp
    | succ breaks =>
      rw [respell_lf_cons, takeBlanks_text_append breaks h, ih]
      simp
  | cons c t hc h ih =>
    cases breaks with
    | zero => simp
    | succ breaks =>
      rw [respell_cons hc, takeBlanks_cons hc, takeBlanks_cons hc, ih]
      split <;> simp [respell_cons hc]

theorem holdsBlankLine_respell (h : '\r' ∉ t) :
    HoldsBlankLine (e.respell t) ↔ HoldsBlankLine t := by
  rw [HoldsBlankLine, HoldsBlankLine, takeBlanks_respell 2 h]

theorem dropIndent_respell (h : '\r' ∉ t) :
    dropIndent (e.respell t) = e.respell (dropIndent t) := by
  induction t using List.reverseRecOn with
  | nil => rfl
  | append_singleton t c ih =>
    have ht : '\r' ∉ t := fun hm => h (by simp [hm])
    have hc : c = '\n' ∨ isLineBreak c = false :=
      eq_lf_or_isLineBreak_eq_false (t := []) fun hm => h (by simp_all)
    rw [respell_append ht]
    rcases hc with rfl | hc
    · rw [dropIndent_of_getLast? (t := t ++ ['\n']) (c := '\n') (by simp) rfl, respell_append ht,
        respell_lf_cons, respell_nil, List.append_nil]
      obtain ⟨c, hlast, hbreak⟩ := e.exists_getLast?_text
      exact dropIndent_of_getLast? (by simp [hlast]) hbreak
    · rw [respell_cons hc, respell_nil, dropIndent_eq_rdropWhile, dropIndent_eq_rdropWhile,
        List.rdropWhile_concat, List.rdropWhile_concat]
      split
      · exact ih ht
      · rw [respell_append ht, respell_cons hc, respell_nil]

section Items

theorem firstWord_respell (h : '\r' ∉ t) : (e.respell t).firstWord = t.firstWord :=
  takeWhile_respell (fun c hc => by simp [isBlank_of_isLineBreak hc]) h

theorem notMem_dropWhile {p : Char → Bool} (h : '\r' ∉ t) : '\r' ∉ t.dropWhile p :=
  fun hm => h ((List.dropWhile_sublist p).subset hm)

theorem secondWord_respell (h : '\r' ∉ t) :
    Grammar.secondWord (e.respell t) = Grammar.secondWord t := by
  have hspace : ∀ c, isLineBreak c → (c == ' ' || c == '\t') = false := by
    intro c hc
    simp only [isLineBreak, Bool.or_eq_true, beq_iff_eq] at hc
    rcases hc with rfl | rfl <;> rfl
  unfold Grammar.secondWord
  rw [dropWhile_respell (fun c hc => by simp [isBlank_of_isLineBreak hc]) h,
    dropWhile_respell hspace (notMem_dropWhile h),
    firstWord_respell (notMem_dropWhile (notMem_dropWhile h))]

theorem closesRegion_respell (h : '\r' ∉ t) :
    g.closesRegion (e.respell t) = g.closesRegion t := by
  simp only [Grammar.closesRegion, Grammar.splitsRegionEnd, firstWord_respell h,
    secondWord_respell h]

def Reading.respell (e : LineEnding) : Reading → Reading
  | .item read rest => .item (read.respell e) (e.respell rest)
  | .unterminated => .unterminated
  | .other => .other

theorem wholeLine_respell (kind : ItemKind) (h : '\r' ∉ t) :
    Reading.wholeLine kind (e.respell t) = (Reading.wholeLine kind t).respell e := by
  have hline : ∀ c, isLineBreak c → (!isLineBreak c) = false := fun c hc => by simp [hc]
  have hself : e.respell t.firstLine = t.firstLine :=
    respell_eq_self fun c hc => by simpa using List.mem_takeWhile_imp hc
  simp only [Reading.wholeLine, Reading.respell, Item.respell, hself, dropWhile_respell hline h]
  rw [firstLine, takeWhile_respell hline h]
  rfl

theorem readBlock_respell {opener closer : Token}
    (hcloser : ∀ c ∈ closer.text, isLineBreak c = false) (hopener : opener.text <+: t.firstWord)
    (h : '\r' ∉ t) :
    Grammar.readBlock opener closer (e.respell t) =
      (Grammar.readBlock opener closer t).respell e := by
  have hword : ∀ c ∈ opener.text, isLineBreak c = false := fun c hc =>
    isLineBreak_eq_false_of_isBlank_eq_false
      (by simpa using List.mem_takeWhile_imp (hopener.subset hc))
  obtain ⟨body, rfl⟩ : opener.text <+: t := hopener.trans (List.takeWhile_prefix _)
  have hbody : '\r' ∉ body := fun hm => h (List.mem_append_right _ hm)
  have hfront : '\r' ∉ opener.text := fun hm => h (List.mem_append_left _ hm)
  unfold Grammar.readBlock
  rw [respell_append hfront, respell_eq_self hword, List.drop_left, List.drop_left, List.take_left,
    List.take_left, splitAtFirst?_respell hcloser closer.ne_nil hbody]
  cases hsplit : splitAtFirst? closer.text body with
  | none => rfl
  | some found =>
    obtain ⟨inner, rest⟩ := found
    have hinner : '\r' ∉ inner := fun hm => hbody (by
      rw [eq_of_splitAtFirst?_eq_some hsplit]
      simp [hm])
    simp [Reading.respell, Item.respell, respell_append, hfront, hinner, respell_eq_self hword,
      respell_eq_self hcloser]

theorem readItem_respell (hg : g.ClosesInLine) (h : '\r' ∉ t) :
    g.readItem (e.respell t) = (g.readItem t).respell e := by
  unfold Grammar.readItem
  rw [firstWord_respell h, closesRegion_respell h, Grammar.opensRegion, firstWord_respell h,
    ← Grammar.opensRegion]
  split
  · exact wholeLine_respell _ h
  · cases hb : g.blockAt? t.firstWord with
    | some pair =>
      obtain ⟨hblock, hopener⟩ := Option.filter_eq_some_iff.mp hb
      exact readBlock_respell (hg pair hblock) (by simpa using hopener) h
    | none =>
      simp only
      split
      · exact wholeLine_respell _ h
      · split
        · exact wholeLine_respell _ h
        · rfl

end Items

variable {p q : Place} {piece : Piece} {pieces : List Piece}

theorem Step.respell (hg : g.ClosesInLine) (hp : '\r' ∉ p.text) (h : Step g p piece q) :
    Step g (p.respell e) (piece.respell e) (q.respell e) := by
  obtain ⟨hpiece, hq⟩ : '\r' ∉ piece.text ∧ '\r' ∉ q.text := by
    rw [h.text, List.mem_append, not_or] at hp
    exact hp
  obtain ⟨hblanks, hitem⟩ : '\r' ∉ piece.blanks ∧ '\r' ∉ piece.item.text := by
    rw [Piece.text, List.mem_append, not_or] at hpiece
    exact hpiece
  have hfront : '\r' ∉ piece.item.text ++ q.text := by simp [hitem, hq]
  exact {
    text := by simp [Place.respell, Piece.respell, Item.respell, Piece.text, h.text, respell_append,
      hblanks, hitem]
    blank := by simp [Piece.respell, isAllBlank_respell hblanks, h.blank]
    gap := fun hw => by
      rw [Piece.respell, holdsBlankLine_respell hblanks]
      exact h.gap hw
    item := by
      have := readItem_respell (e := e) hg hfront
      rw [h.item, respell_append hitem] at this
      exact this
    depth := h.depth
    started := h.started }

theorem Steps.respell (hg : g.ClosesInLine) (hp : '\r' ∉ p.text) (h : Steps g p pieces q) :
    Steps g (p.respell e) (pieces.map (Piece.respell e)) (q.respell e) := by
  induction h with
  | nil => exact .nil
  | cons step _ ih =>
    refine .cons (step.respell hg hp) (ih fun hm => hp ?_)
    rw [step.text]
    exact List.mem_append_right _ hm

theorem Halts.respell (hg : g.ClosesInLine) {blanks : Text} {stop : Stop} (hp : '\r' ∉ p.text)
    (h : Halts g p blanks stop) : Halts g (p.respell e) (e.respell blanks) stop := by
  have hblanks : '\r' ∉ blanks := fun hm => hp (h.isPrefix.subset hm)
  cases stop with
  | endOfText =>
    obtain ⟨htext, hb, hgap⟩ := h
    refine ⟨by rw [Place.respell, htext], by rw [isAllBlank_respell hblanks, hb], fun hw => ?_⟩
    rw [holdsBlankLine_respell hblanks]
    exact hgap hw
  | blankLine =>
    obtain ⟨hw, rest, hread⟩ := h
    exact ⟨hw, e.respell rest, by rw [Place.respell, takeBlanks_respell 2 hp, hread]⟩
  | otherText =>
    obtain ⟨front, htext, hb, hgap, hcore, hne, hitem⟩ := h
    have hfront : '\r' ∉ front := fun hm => hp (by simp [htext, hm])
    refine ⟨e.respell front, by rw [Place.respell, htext, respell_append hblanks],
      by rw [isAllBlank_respell hblanks, hb], fun hw => ?_, by rw [trimStart_respell hfront, hcore],
      mt (respell_eq_nil_iff hfront).mp hne, by rw [readItem_respell hg hfront, hitem]; rfl⟩
    rw [holdsBlankLine_respell hblanks]
    exact hgap hw

theorem closedCount?_map_respell (depth : Nat) (pieces : List Piece) :
    closedCount? depth (pieces.map (Piece.respell e)) = closedCount? depth pieces := by
  induction pieces generalizing depth with
  | nil => rfl
  | cons piece pieces ih =>
    simp only [List.map_cons, closedCount?, ih]
    rfl

theorem piecesText_map_respell (h : '\r' ∉ piecesText pieces) :
    piecesText (pieces.map (Piece.respell e)) = e.respell (piecesText pieces) := by
  induction pieces with
  | nil => rfl
  | cons piece pieces ih =>
    simp only [piecesText, List.flatMap_cons, List.mem_append, not_or, Piece.text] at h ih ⊢
    simp only [List.map_cons, List.flatMap_cons, ih h.2, respell_append, h, List.append_assoc,
      Piece.respell, Item.respell, Piece.text, not_false_eq_true]

def Scan.respell (e : LineEnding) (s : Scan) : Scan :=
  ⟨s.pieces.map (Piece.respell e), e.respell s.blanks, s.stop⟩

theorem Scan.found_respell {s : Scan} (hp : '\r' ∉ piecesText s.pieces) (hb : '\r' ∉ s.blanks)
    (n : Nat) : (s.respell e).found n = e.respell (s.found n) := by
  cases hdrop : s.pieces.drop n with
  | nil =>
    have hlen := List.drop_eq_nil_iff.mp hdrop
    have htext : (s.respell e).text = e.respell s.text := by
      simp only [Scan.text, Scan.respell, piecesText_map_respell hp, respell_append hp]
    rw [Scan.found_of_length_le hlen, Scan.found_of_length_le (by simpa [Scan.respell] using hlen),
      htext]
    have hs : '\r' ∉ s.text := by simp [Scan.text, hp, hb]
    by_cases hstop : s.stop = .otherText
    · rw [if_pos (show (s.respell e).stop = _ from hstop), if_pos hstop, dropIndent_respell hs]
    · rw [if_neg (show (s.respell e).stop ≠ _ from hstop), if_neg hstop]
  | cons opening more =>
    rw [piecesText_of_drop hdrop] at hp
    simp only [Piece.text, List.mem_append, not_or] at hp
    have hdrop' : (s.respell e).pieces.drop n =
        opening.respell e :: more.map (Piece.respell e) := by
      simp [Scan.respell, ← List.map_drop, hdrop]
    have hfront : '\r' ∉ piecesText (s.pieces.take n) ++ opening.blanks := by simp [hp]
    rw [Scan.found_of_drop hdrop, Scan.found_of_drop hdrop', ← dropIndent_respell hfront,
      respell_append hp.1.1, Scan.respell, ← List.map_take, piecesText_map_respell hp.1.1]
    rfl

theorem leading_respell (hg : g.ClosesInLine) (h : '\r' ∉ t) {comment : Text}
    (hc : g.leading t = .ok comment) : g.leading (e.respell t) = .ok (e.respell comment) := by
  obtain ⟨s, q, hsteps, hhalt, rfl⟩ := leading_eq_ok_iff.mp hc
  obtain ⟨n, hn⟩ := exists_closedCount?_zero s.pieces
  have htext : t = piecesText s.pieces ++ q.text := hsteps.text
  obtain ⟨hpieces, hq⟩ : '\r' ∉ piecesText s.pieces ∧ '\r' ∉ q.text := by
    rw [htext, List.mem_append, not_or] at h
    exact h
  have hblanks : '\r' ∉ s.blanks := fun hm => hq (hhalt.isPrefix.subset hm)
  have hsteps' : Steps g (.start (e.respell t)) (s.respell e).pieces (q.respell e) :=
    hsteps.respell hg h
  have hn' : closedCount? 0 (s.respell e).pieces = some n := by
    rw [Scan.respell, closedCount?_map_respell, hn]
  refine leading_eq_ok_iff.mpr ⟨s.respell e, _, hsteps', hhalt.respell hg hq, ?_⟩
  rw [Scan.leading_eq hsteps hn, Scan.leading_eq hsteps' hn', Scan.found_respell hpieces hblanks]
  split <;> rfl

theorem CompleteScan.respell {blanks : Text} (h : CompleteScan g t pieces blanks)
    (hg : g.ClosesInLine) (ht : '\r' ∉ t) (e : LineEnding) :
    CompleteScan g (e.respell t) (pieces.map (Piece.respell e)) (e.respell blanks) := by
  have htext := h.text
  rw [htext, List.mem_append, not_or] at ht
  refine ⟨?_, ?_, ?_, by simpa using h.ne_nil, ?_⟩
  · rw [htext, respell_append ht.1, piecesText_map_respell ht.1]
  · exact h.steps.respell hg (by simp [Place.start, htext, ht])
  · rw [Closed, closedCount?_map_respell, List.length_map]
    exact h.closed
  · obtain ⟨missing, hread⟩ := h.read
    exact ⟨missing, by rw [takeBlanks_respell 2 ht.2, hread]; rfl⟩

end Masthead.Comment
