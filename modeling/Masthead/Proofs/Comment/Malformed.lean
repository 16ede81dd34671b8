import Masthead.Proofs.Comment.Respelling

namespace Masthead.Comment
open Text LineEnding

variable {g : Grammar} {e : LineEnding} {t : Text} {p q : Place} {cause : CommentError}

/-- What is wrong with the item at the front of a text, if `depth` regions are open. -/
def Grammar.flaw? (g : Grammar) (depth : ℕ) (t : Text) : Option (ℕ → CommentError) :=
  match g.readItem t with
  | .unterminated => some .unterminatedBlockComment
  | .item item _ =>
    if item.kind.depthAfter? depth = none then some .unmatchedRegionClose else none
  | .other => none

def Fails (g : Grammar) (p : Place) (blanks : Text) (flaw : ℕ → CommentError) : Prop :=
  ∃ front, readGap p.watches p.text = ⟨blanks, front, none⟩ ∧ g.flaw? p.depth front = some flaw

theorem flaw_cases {depth : ℕ} {flaw : ℕ → CommentError} (h : g.flaw? depth t = some flaw) :
    flaw = .unterminatedBlockComment ∨ flaw = .unmatchedRegionClose := by
  unfold Grammar.flaw? at h
  split at h
  · exact .inl (Option.some.inj h).symm
  · split at h
    · exact .inr (Option.some.inj h).symm
    · cases h
  · cases h

theorem Fails.exists_rest {blanks : Text} {flaw : ℕ → CommentError} (h : Fails g p blanks flaw) :
    ∃ front, p.text = blanks ++ front ∧ front ≠ [] := by
  obtain ⟨front, hgap, -⟩ := h
  obtain ⟨htext, -, -, hne, -⟩ := readGap_eq_none_iff.mp hgap
  exact ⟨front, htext, hne⟩

theorem scanFrom_of_fails {blanks : Text} {flaw : ℕ → CommentError} (h : Fails g p blanks flaw)
    (offset : ℕ) :
    g.scanFrom p.started p.depth offset p.text = .error (flaw (offset + blanks.bytes)) := by
  obtain ⟨front, hgap, hflaw⟩ := h
  simp only [Place.watches] at hgap
  unfold Grammar.flaw? at hflaw
  rw [Grammar.scanFrom]
  split
  · simp_all
  · rename_i hgap'
    obtain ⟨rfl, rfl⟩ : blanks = _ ∧ front = _ := by simpa using hgap.symm.trans hgap'
    split <;> simp_all

theorem scanFrom_eq_error_iff {offset : ℕ} :
    g.scanFrom p.started p.depth offset p.text = .error cause ↔
      ∃ pieces q blanks flaw, Steps g p pieces q ∧ Fails g q blanks flaw ∧
        cause = flaw (offset + (piecesText pieces ++ blanks).bytes) := by
  constructor
  · intro h
    obtain ⟨started, depth, t⟩ := p
    dsimp only at h
    fun_induction Grammar.scanFrom g started depth offset t with
    | case1 => simp at h
    | case2 => simp at h
    | case3 started depth offset t blanks front hgap hitem =>
      refine ⟨[], _, blanks, _, .nil, ⟨front, hgap, by rw [Grammar.flaw?, hitem]⟩, ?_⟩
      exact (Except.error.inj h).symm
    | case4 started depth offset t blanks front hgap item rest hitem hdepth =>
      refine ⟨[], _, blanks, _, .nil, ⟨front, hgap, by rw [Grammar.flaw?, hitem]; exact if_pos hdepth⟩,
        (Except.error.inj h).symm⟩
    | case5 started depth offset t blanks front hgap item rest hitem newDepth hdepth ih =>
      cases hs : g.scanFrom true newDepth (offset + blanks.bytes + item.text.bytes) rest with
      | ok tail => simp [hs, bind, Except.bind] at h
      | error cause' =>
        obtain rfl : cause' = cause := by simpa [hs, bind, Except.bind] using h
        obtain ⟨pieces, q, blanks', flaw, hsteps, hfails, rfl⟩ := ih hs
        refine ⟨⟨blanks, item⟩ :: pieces, q, blanks', flaw,
          .cons (step_iff.mpr ⟨front, hgap, hitem, hdepth⟩) hsteps, hfails, ?_⟩
        simp [piecesText, Piece.text, Nat.add_assoc]
  · rintro ⟨pieces, q, blanks, flaw, hsteps, hfails, rfl⟩
    induction hsteps generalizing offset with
    | nil => exact scanFrom_of_fails hfails offset
    | cons step _ ih =>
      rw [scanFrom_step step, ih hfails]
      simp [piecesText, Except.map, Nat.add_assoc]

theorem leading_eq_error_iff : g.leading t = .error cause ↔
    ∃ pieces q blanks flaw, Steps g (.start t) pieces q ∧ Fails g q blanks flaw ∧
      cause = flaw (piecesText pieces ++ blanks).bytes := by
  have hscan : g.leading t = .error cause ↔ g.scan t = .error cause := by
    rw [Grammar.leading]
    cases g.scan t <;> simp [Except.map]
  have h := @scanFrom_eq_error_iff g (.start t) cause 0
  simp only [Nat.zero_add] at h
  exact hscan.trans h

/-! ## Respelled texts -/

/-- The same is wrong at corresponding characters of a text and of its respelling. -/
inductive CommentError.Respelled (e : LineEnding) (t : Text) : CommentError → CommentError → Prop
  | unterminatedBlockComment {front rest : Text} (text : t = front ++ rest) (ne_nil : rest ≠ []) :
      Respelled e t (.unterminatedBlockComment front.bytes)
        (.unterminatedBlockComment (e.respell front).bytes)
  | unmatchedRegionClose {front rest : Text} (text : t = front ++ rest) (ne_nil : rest ≠ []) :
      Respelled e t (.unmatchedRegionClose front.bytes)
        (.unmatchedRegionClose (e.respell front).bytes)

theorem CommentError.Respelled.of_unterminated {offset : ℕ} {cause' : CommentError}
    (h : (CommentError.unterminatedBlockComment offset).Respelled e t cause') :
    ∃ front : Text, front <+: t ∧ offset = front.bytes ∧
      cause' = .unterminatedBlockComment (e.respell front).bytes := by
  generalize hcause : CommentError.unterminatedBlockComment offset = cause at h
  cases h with
  | @unterminatedBlockComment front rest text =>
    exact ⟨front, ⟨rest, text.symm⟩, CommentError.unterminatedBlockComment.inj hcause, rfl⟩
  | unmatchedRegionClose => cases hcause

theorem flaw?_respell (hg : g.ClosesInLine) (h : '\r' ∉ t) (depth : ℕ) :
    g.flaw? depth (e.respell t) = g.flaw? depth t := by
  unfold Grammar.flaw?
  rw [readItem_respell hg h]
  cases g.readItem t <;> rfl

theorem Fails.respell (hg : g.ClosesInLine) {blanks : Text} {flaw : ℕ → CommentError}
    (hp : '\r' ∉ p.text) (h : Fails g p blanks flaw) :
    Fails g (p.respell e) (e.respell blanks) flaw := by
  obtain ⟨front, hgap, hflaw⟩ := h
  obtain ⟨htext, hblank, hcore, hne, hline⟩ := readGap_eq_none_iff.mp hgap
  obtain ⟨hblanks, hfront⟩ : '\r' ∉ blanks ∧ '\r' ∉ front := by
    rw [htext, List.mem_append, not_or] at hp
    exact hp
  refine ⟨e.respell front, readGap_eq_none_iff.mpr ⟨?_, ?_, ?_, ?_, fun hw => ?_⟩, ?_⟩
  · rw [Place.respell, htext, respell_append hblanks]
  · rw [isAllBlank_respell hblanks, hblank]
  · rw [trimStart_respell hfront, hcore]
  · exact mt (respell_eq_nil_iff hfront).mp hne
  · rw [holdsBlankLine_respell hblanks]
    exact hline hw
  · rw [flaw?_respell hg hfront]
    exact hflaw

/-- If the leading comment of a text is malformed, that of the respelled text is so in the same
way. -/
theorem leading_respell_error (hg : g.ClosesInLine) (h : '\r' ∉ t)
    (hcause : g.leading t = .error cause) :
    ∃ cause', g.leading (e.respell t) = .error cause' ∧ cause.Respelled e t cause' := by
  obtain ⟨pieces, q, blanks, flaw, hsteps, hfails, rfl⟩ := leading_eq_error_iff.mp hcause
  obtain ⟨rest, hq, hne⟩ := hfails.exists_rest
  have htext : t = piecesText pieces ++ q.text := hsteps.text
  obtain ⟨hpieces, hrest⟩ : '\r' ∉ piecesText pieces ∧ '\r' ∉ q.text := by
    rw [htext, List.mem_append, not_or] at h
    exact h
  have hsplit : t = (piecesText pieces ++ blanks) ++ rest := by
    rw [htext, hq, List.append_assoc]
  refine ⟨flaw (e.respell (piecesText pieces ++ blanks)).bytes, ?_, ?_⟩
  · refine leading_eq_error_iff.mpr ⟨pieces.map (Piece.respell e), q.respell e, e.respell blanks, flaw,
      hsteps.respell hg h, hfails.respell hg hrest, ?_⟩
    rw [respell_append hpieces, piecesText_map_respell hpieces]
  · obtain ⟨front, -, hflaw⟩ := hfails
    obtain rfl | rfl := flaw_cases hflaw
    · exact .unterminatedBlockComment hsplit hne
    · exact .unmatchedRegionClose hsplit hne

theorem isComplete_respell (hg : g.ClosesInLine) (h : '\r' ∉ t) (e : LineEnding) :
    g.isComplete (e.respell t) = g.isComplete t := by
  cases hc : g.leading t with
  | ok comment =>
    have hcomment : '\r' ∉ comment := fun hm => h ((leading_isPrefix hc).subset hm)
    rw [Bool.eq_iff_iff]
    simp [Grammar.isComplete, hc, leading_respell hg h hc, respell_inj hcomment h]
  | error cause =>
    obtain ⟨cause', hcause', -⟩ := leading_respell_error (e := e) hg h hc
    simp [Grammar.isComplete, hc, hcause']

end Masthead.Comment
