import Masthead.Proofs.Comment.Gap

/-!
# The scan as a run of steps

A scan reads one piece after the other and halts at the end of the text, behind a blank line, or in
front of text that is no item. `scanFrom_eq_ok_iff` says that the scan succeeds with exactly the
pieces of such a run, and `leading_eq_ok_iff` reads the leading comment off it.
-/
namespace Masthead.Comment
open Text

/-- Where a scan stands: whether it has read an item, how many regions are open, and the rest. -/
structure Place where
  started : Bool
  depth : Nat
  text : Text

/-- A blank line ends the scan. -/
def Place.watches (p : Place) : Bool := p.started && p.depth == 0

/-- The scan reads a piece at `p` and goes on at `q`. -/
structure Step (g : Grammar) (p : Place) (piece : Piece) (q : Place) : Prop where
  text : p.text = piece.text ++ q.text
  blank : piece.blanks.isAllBlank
  gap : p.watches → ¬ HoldsBlankLine piece.blanks
  item : g.readItem (piece.item.text ++ q.text) = .item piece.item q.text
  depth : piece.item.kind.depthAfter? p.depth = some q.depth
  started : q.started = true

/-- The pieces that a scan reads from `p` to `q`. -/
inductive Steps (g : Grammar) : Place → List Piece → Place → Prop
  | nil {p : Place} : Steps g p [] p
  | cons {p q r : Place} {piece : Piece} {pieces : List Piece}
      (step : Step g p piece q) (steps : Steps g q pieces r) : Steps g p (piece :: pieces) r

def Halts (g : Grammar) (p : Place) (blanks : Text) : Stop → Prop
  | .endOfText => p.text = blanks ∧ blanks.isAllBlank ∧ (p.watches → ¬ HoldsBlankLine blanks)
  | .blankLine => p.watches ∧ ∃ rest, takeBlanks 2 p.text = (blanks, rest, 0)
  | .otherText => ∃ front, p.text = blanks ++ front ∧ blanks.isAllBlank ∧
      (p.watches → ¬ HoldsBlankLine blanks) ∧ front.trimStart = front ∧ front ≠ [] ∧
      g.readItem front = .other

variable {g : Grammar} {p q r : Place} {piece : Piece} {pieces more : List Piece}

theorem Steps.append (first : Steps g p pieces q) (last : Steps g q more r) :
    Steps g p (pieces ++ more) r := by
  induction first with
  | nil => exact last
  | cons step _ ih => exact .cons step (ih last)

theorem Steps.text (h : Steps g p pieces q) : p.text = piecesText pieces ++ q.text := by
  induction h with
  | nil => rfl
  | cons step _ ih => simp [step.text, ih, piecesText]

theorem Steps.started (h : Steps g p pieces q) (hne : pieces ≠ []) : q.started = true := by
  induction h with
  | nil => exact absurd rfl hne
  | @cons p q r piece pieces step steps ih =>
    cases pieces with
    | nil =>
      cases steps
      exact step.started
    | cons => exact ih (by simp)

theorem trimStart_of_readItem {t rest : Text} {item : Item}
    (h : g.readItem t = .item item rest) : t.trimStart = t ∧ t ≠ [] := by
  have hw := (Grammar.readItem_eq_item_iff.mp h).firstWord_ne_nil
  cases t with
  | nil => exact absurd rfl hw
  | cons c t =>
    have hc : isBlank c = false := by
      cases hc : isBlank c with
      | false => rfl
      | true => simp [firstWord, hc] at hw
    exact ⟨trimStart_cons hc t, by simp⟩

theorem Step.core (h : Step g p piece q) :
    (piece.item.text ++ q.text).trimStart = piece.item.text ++ q.text ∧
      piece.item.text ++ q.text ≠ [] := trimStart_of_readItem h.item

/-- A piece is read behind other blanks as well, if they hold no blank line where that matters. -/
theorem Step.of_blanks {blanks blanks' core : Text} (h : Step g p piece q)
    (hb : blanks.isAllBlank) (hb' : blanks'.isAllBlank) (hcore : core.trimStart = core)
    (ht : p.text = blanks ++ core) (hr : r.text = blanks' ++ core) (hd : r.depth = p.depth)
    (hgap : r.watches → ¬ HoldsBlankLine blanks') :
    piece.blanks = blanks ∧ Step g r ⟨blanks', piece.item⟩ q := by
  have htext : blanks ++ core = piece.blanks ++ (piece.item.text ++ q.text) := by
    rw [← ht, h.text, Piece.text, List.append_assoc]
  obtain ⟨rfl, rfl⟩ := append_core_inj hb h.blank hcore h.core.1 htext
  exact ⟨rfl, { h with
    text := by simp [hr, Piece.text]
    blank := hb'
    gap := hgap
    depth := by rw [hd, h.depth] }⟩

theorem step_iff {blanks rest : Text} {item : Item} {depth : Nat} :
    Step g p ⟨blanks, item⟩ ⟨true, depth, rest⟩ ↔
      ∃ front, readGap p.watches p.text = ⟨blanks, front, none⟩ ∧
        g.readItem front = .item item rest ∧ item.kind.depthAfter? p.depth = some depth := by
  constructor
  · intro h
    refine ⟨item.text ++ rest, ?_, h.item, h.depth⟩
    rw [readGap_eq_none_iff]
    exact ⟨by simpa [Piece.text] using h.text, h.blank, h.core.1, h.core.2, h.gap⟩
  · rintro ⟨front, hgap, hitem, hdepth⟩
    obtain ⟨ht, hb, -, -, hline⟩ := readGap_eq_none_iff.mp hgap
    obtain ⟨rfl, -⟩ := Grammar.readItem_eq_item hitem
    exact ⟨by simpa [Piece.text] using ht, hb, hline, hitem, hdepth, rfl⟩

theorem halts_of_readGap {blanks rest : Text} {stop : Stop}
    (h : readGap p.watches p.text = ⟨blanks, rest, some stop⟩) : Halts g p blanks stop := by
  rcases readGap_eq_some_iff.mp h with ⟨rfl, rfl, -, hb, hgap⟩ | ⟨rfl, hw, ht⟩
  · exact ⟨rfl, hb, hgap⟩
  · exact ⟨hw, rest, ht⟩

theorem steps_of_scanFrom {started : Bool} {depth offset : Nat} {t : Text} {s : Scan}
    (h : g.scanFrom started depth offset t = .ok s) :
    ∃ q, Steps g ⟨started, depth, t⟩ s.pieces q ∧ Halts g q s.blanks s.stop := by
  fun_induction Grammar.scanFrom g started depth offset t generalizing s with
  | case1 started depth offset t blanks rest stop hgap =>
    cases h
    exact ⟨_, .nil, halts_of_readGap hgap⟩
  | case2 started depth offset t blanks front hgap hitem =>
    cases h
    obtain ⟨ht, hb, hf, hne, hline⟩ := readGap_eq_none_iff.mp hgap
    exact ⟨_, .nil, front, ht, hb, hline, hf, hne, hitem⟩
  | case3 => simp at h
  | case4 => simp at h
  | case5 started depth offset t blanks front hgap item rest hitem newDepth hdepth ih =>
    cases hs : g.scanFrom true newDepth (offset + blanks.bytes + item.text.bytes) rest with
    | error e => simp [hs, bind, Except.bind] at h
    | ok tail =>
      obtain rfl : { tail with pieces := ⟨blanks, item⟩ :: tail.pieces } = s := by
        simpa [hs, bind, Except.bind] using h
      obtain ⟨q, hsteps, hhalt⟩ := ih hs
      exact ⟨q, .cons (step_iff.mpr ⟨front, hgap, hitem, hdepth⟩) hsteps, hhalt⟩

theorem scanFrom_of_halts {offset : Nat} {blanks : Text} {stop : Stop}
    (h : Halts g p blanks stop) :
    g.scanFrom p.started p.depth offset p.text = .ok ⟨[], blanks, stop⟩ := by
  rw [Grammar.scanFrom]
  cases stop with
  | endOfText =>
    have hgap := readGap_eq_some_iff.mpr (.inl ⟨rfl, h.1, rfl, h.1 ▸ h.2.1, h.1 ▸ h.2.2⟩)
    split <;> simp_all [Place.watches]
  | blankLine =>
    obtain ⟨hw, rest, ht⟩ := h
    have hgap := readGap_eq_some_iff.mpr (.inr ⟨rfl, hw, ht⟩)
    split <;> simp_all [Place.watches]
  | otherText =>
    obtain ⟨front, ht, hb, hline, hf, hne, hitem⟩ := h
    have hgap := readGap_eq_none_iff.mpr ⟨ht, hb, hf, hne, hline⟩
    split
    · simp_all [Place.watches]
    · split <;> simp_all [Place.watches]

theorem scanFrom_step (h : Step g p piece q) (offset : Nat) :
    g.scanFrom p.started p.depth offset p.text =
      (g.scanFrom q.started q.depth (offset + piece.text.bytes) q.text).map fun s =>
        { s with pieces := piece :: s.pieces } := by
  obtain ⟨started, depth, rest⟩ := q
  obtain rfl := h.started
  obtain ⟨front, hgap, hitem, hdepth⟩ := step_iff.mp h
  simp only [Place.watches] at hgap
  rw [Grammar.scanFrom]
  split
  · simp_all
  · rename_i hgap'
    obtain ⟨rfl, rfl⟩ : piece.blanks = _ ∧ front = _ := by simpa using hgap.symm.trans hgap'
    split
    · simp_all
    · simp_all
    · rename_i hitem'
      obtain ⟨rfl, rfl⟩ : piece.item = _ ∧ rest = _ := by simpa using hitem.symm.trans hitem'
      rw [Piece.text, bytes_append, ← Nat.add_assoc, hdepth]
      dsimp only
      cases g.scanFrom true depth (offset + piece.blanks.bytes + piece.item.text.bytes) rest <;> rfl

theorem scanFrom_of_step {offset : Nat} {s : Scan} (h : Step g p piece q)
    (hs : ∀ offset, g.scanFrom q.started q.depth offset q.text = .ok s) :
    g.scanFrom p.started p.depth offset p.text = .ok { s with pieces := piece :: s.pieces } := by
  rw [scanFrom_step h, hs]
  rfl

theorem scanFrom_of_steps {offset : Nat} {blanks : Text} {stop : Stop}
    (h : Steps g p pieces q) (hhalt : Halts g q blanks stop) :
    g.scanFrom p.started p.depth offset p.text = .ok ⟨pieces, blanks, stop⟩ := by
  induction h generalizing offset with
  | nil => exact scanFrom_of_halts hhalt
  | cons step _ ih => exact scanFrom_of_step step fun _ => ih hhalt

theorem scanFrom_eq_ok_iff {offset : Nat} {s : Scan} :
    g.scanFrom p.started p.depth offset p.text = .ok s ↔
      ∃ q, Steps g p s.pieces q ∧ Halts g q s.blanks s.stop :=
  ⟨steps_of_scanFrom, fun ⟨_, hsteps, hhalt⟩ => scanFrom_of_steps hsteps hhalt⟩

/-- A text is scanned from its start, where nothing is read and no region is open. -/
def Place.start (t : Text) : Place := ⟨false, 0, t⟩

theorem leading_eq_ok_iff {t comment : Text} :
    g.leading t = .ok comment ↔ ∃ (s : Scan) (q : Place), Steps g (.start t) s.pieces q ∧
      Halts g q s.blanks s.stop ∧ s.leading = comment := by
  have hscan : ∀ s : Scan, g.scan t = .ok s ↔
      ∃ q, Steps g (.start t) s.pieces q ∧ Halts g q s.blanks s.stop := fun s =>
    scanFrom_eq_ok_iff (p := .start t)
  constructor
  · intro h
    cases hs : g.scan t with
    | error e => simp [Grammar.leading, hs, Except.map] at h
    | ok s =>
      obtain ⟨q, hsteps, hhalt⟩ := (hscan s).mp hs
      exact ⟨s, q, hsteps, hhalt, by simpa [Grammar.leading, hs, Except.map] using h⟩
  · rintro ⟨s, q, hsteps, hhalt, rfl⟩
    rw [Grammar.leading, (hscan s).mpr ⟨q, hsteps, hhalt⟩]
    rfl

theorem Step.not_isAllBlank (h : Step g p piece q) : piece.item.text.isAllBlank = false := by
  obtain ⟨-, hne⟩ := Grammar.readItem_eq_item h.item
  obtain ⟨c, item, hi⟩ := List.exists_cons_of_ne_nil hne
  have hc := h.core.1
  rw [hi, List.cons_append] at hc
  simp [hi, isBlank_head_trimStart hc]

def Closed (depth : Nat) (pieces : List Piece) : Prop :=
  closedCount? depth pieces = some pieces.length

theorem exists_closedCount?_zero (pieces : List Piece) : ∃ n, closedCount? 0 pieces = some n := by
  cases pieces with
  | nil => exact ⟨0, rfl⟩
  | cons piece pieces =>
    cases h : (piece.item.kind.depthAfter? 0).bind (closedCount? · pieces) with
    | none => exact ⟨0, by simp [closedCount?, h]⟩
    | some n => exact ⟨n + 1, by simp [closedCount?, h]⟩

theorem closed_cons_iff {depth : Nat} :
    Closed depth (piece :: pieces) ↔
      ∃ next, piece.item.kind.depthAfter? depth = some next ∧ Closed next pieces := by
  cases h : piece.item.kind.depthAfter? depth with
  | none =>
    simp only [Closed, closedCount?, h, Option.bind_none]
    split <;> simp
  | some next =>
    cases hn : closedCount? next pieces with
    | none =>
      simp only [Closed, closedCount?, h, Option.bind_some, hn]
      split <;> simp [hn]
    | some n => simp [Closed, closedCount?, h, hn]

theorem Closed.append {depth : Nat} (h : Closed depth pieces) (more : List Piece) :
    closedCount? depth (pieces ++ more) = (closedCount? 0 more).map (pieces.length + ·) := by
  obtain ⟨n, hn⟩ := exists_closedCount?_zero more
  induction pieces generalizing depth with
  | nil =>
    have hd : depth = 0 := by
      by_contra hd
      simp [Closed, closedCount?, hd] at h
    simp [hd, hn]
  | cons piece pieces ih =>
    obtain ⟨next, hnext, hclosed⟩ := closed_cons_iff.mp h
    have := ih hclosed
    rw [hn, Option.map_some] at this ⊢
    simp only [List.cons_append, closedCount?, hnext, Option.bind_some, this, List.length_cons]
    rw [Nat.add_right_comm]

theorem Steps.depth_eq_zero (h : Steps g p pieces q) (hclosed : Closed p.depth pieces) :
    q.depth = 0 := by
  induction h with
  | @nil p =>
    by_contra hd
    simp [Closed, closedCount?, hd] at hclosed
  | cons step _ ih =>
    obtain ⟨next, hnext, hrest⟩ := closed_cons_iff.mp hclosed
    rw [step.depth, Option.some.injEq] at hnext
    exact ih (hnext ▸ hrest)

/-- What a scan has found if its first `n` pieces are the ones that count. -/
def Scan.found (s : Scan) (n : Nat) : Text :=
  match s.pieces.drop n with
  | opening :: _ => dropIndent (piecesText (s.pieces.take n) ++ opening.blanks)
  | [] => if s.stop = .otherText then dropIndent s.text else s.text

namespace Scan

variable {s : Scan} {n : Nat}

theorem found_of_length_le (h : s.pieces.length ≤ n) :
    s.found n = if s.stop = .otherText then dropIndent s.text else s.text := by
  simp [found, List.drop_eq_nil_of_le h]

theorem found_of_drop {opening : Piece} (h : s.pieces.drop n = opening :: more) :
    s.found n = dropIndent (piecesText (s.pieces.take n) ++ opening.blanks) := by
  simp [found, h]

theorem not_isAllBlank_found (hsteps : Steps g p s.pieces q)
    (hn : closedCount? 0 s.pieces = some n) (h0 : n ≠ 0) : (s.found n).isAllBlank = false := by
  obtain ⟨n, rfl⟩ := Nat.exists_eq_succ_of_ne_zero h0
  cases hp : s.pieces with
  | nil => simp [hp, closedCount?] at hn
  | cons piece more =>
    have hitem : piece.item.text.isAllBlank = false := by
      rw [hp] at hsteps
      cases hsteps with
      | cons step _ => exact step.not_isAllBlank
    unfold found
    split
    · simp [hp, piecesText, Piece.text, hitem]
    · split <;> simp [Scan.text, hp, piecesText, Piece.text, hitem]

theorem leading_eq (hsteps : Steps g p s.pieces q) (hn : closedCount? 0 s.pieces = some n) :
    s.leading = if n = 0 then [] else s.found n := by
  have hfound : s.leading =
      if s.pieces = [] || (s.found n).isAllBlank then [] else s.found n := by
    rw [leading, hn]
    rfl
  rw [hfound]
  by_cases h0 : n = 0
  · subst h0
    cases hp : s.pieces with
    | nil => simp
    | cons piece more =>
      have hb : piece.blanks.isAllBlank := by
        rw [hp] at hsteps
        cases hsteps with
        | cons step _ => exact step.blank
      simp [found, hp, piecesText, hb]
  · have hne : s.pieces ≠ [] := by
      rintro hp
      exact h0 (by simpa [hp, closedCount?] using hn.symm)
    simp [not_isAllBlank_found hsteps hn h0, hne, h0]

theorem leading_eq_nil_iff (hsteps : Steps g p s.pieces q)
    (hn : closedCount? 0 s.pieces = some n) : s.leading = [] ↔ n = 0 := by
  rw [leading_eq hsteps hn]
  by_cases h0 : n = 0
  · simp [h0]
  · have hb := not_isAllBlank_found hsteps hn h0
    have hne : s.found n ≠ [] := by
      rintro he
      simp [he] at hb
    simp [h0, hne]

end Scan

theorem not_isAllBlank_leading {t comment : Text} (h : g.leading t = .ok comment)
    (hne : comment ≠ []) : comment.isAllBlank = false := by
  obtain ⟨s, q, hsteps, -, rfl⟩ := leading_eq_ok_iff.mp h
  obtain ⟨n, hn⟩ := exists_closedCount?_zero s.pieces
  rw [Scan.leading_eq hsteps hn] at hne ⊢
  by_cases h0 : n = 0
  · simp [h0] at hne
  · rw [if_neg h0]
    exact Scan.not_isAllBlank_found hsteps hn h0

end Masthead.Comment
