import Masthead.Proofs.Comment.Malformed
import Masthead.Proofs.Comment.Scanner

/-!
# The rounds of a scanner

A scanner that starts at the front of a text stands at a boundary before every round, and every round
has a result: the scanner goes on at a later boundary, it has found the byte at which the items end,
or it has found a malformed item. So there are no more rounds than bytes before the last one, and
the scanner finds the leading comment of the text.
-/
namespace Masthead.Comment
open Text

variable {g : Grammar} {t front blanks rest : Text} {p q : Place} {piece : Piece}
  {pieces : List Piece} {s next : Scanner} {n : ℕ}

/-- What stands at the front of a place is a piece, what the scan ends with, or malformed. -/
theorem Place.cases (g : Grammar) (p : Place) :
    (∃ piece q, Step g p piece q) ∨ (∃ blanks stop, Halts g p blanks stop) ∨
      ∃ blanks flaw, Fails g p blanks flaw := by
  obtain ⟨blanks, rest, stop, hgap⟩ : ∃ blanks rest stop,
      readGap p.watches p.text = ⟨blanks, rest, stop⟩ := ⟨_, _, _, rfl⟩
  cases stop with
  | some stop => exact .inr (.inl ⟨blanks, stop, halts_of_readGap hgap⟩)
  | none =>
    cases hitem : g.readItem rest with
    | other =>
      obtain ⟨htext, hblank, hcore, hne, hline⟩ := readGap_eq_none_iff.mp hgap
      exact .inr (.inl ⟨blanks, .otherText, rest, htext, hblank, hline, hcore, hne, hitem⟩)
    | unterminated => exact .inr (.inr ⟨blanks, _, rest, hgap, by rw [Grammar.flaw?, hitem]⟩)
    | item item behind =>
      cases hdepth : item.kind.depthAfter? p.depth with
      | none =>
        exact .inr (.inr ⟨blanks, _, rest, hgap, by rw [Grammar.flaw?, hitem]; exact if_pos hdepth⟩)
      | some depth => exact .inl ⟨⟨blanks, item⟩, _, step_iff.mpr ⟨rest, hgap, hitem, hdepth⟩⟩

namespace Scanner

def past (s : Scanner) (piece : Piece) : Scanner :=
  s.behind (s.position + piece.blanks.bytes) piece.item

/-- A scanner stands behind `front`, in front of the text of a place, where as many regions are
open. -/
structure At (t front : Text) (s : Scanner) (p : Place) : Prop where
  text : t = front ++ p.text
  position : s.position = front.bytes
  started : s.started = p.started
  depth : s.regions.length = p.depth
  regions : ∀ start ∈ s.regions, t.IsBoundary start

theorem at_start (t : Text) : At t [] .start (.start t) where
  text := rfl
  position := rfl
  started := rfl
  depth := rfl
  regions := nofun

namespace At

theorem isPrefix (h : At t front s p) (hblanks : blanks <+: p.text) : front ++ blanks <+: t := by
  rw [h.text]
  exact (List.prefix_append_right_inj front).mpr hblanks

theorem watches (h : At t front s p) : (s.started && s.regions.isEmpty) = p.watches := by
  rw [Place.watches, h.started, ← h.depth]
  cases s.regions <;> rfl

theorem skipBlanks?_eq (h : At t front s p) :
    skipBlanks? t (s.started && s.regions.isEmpty) 0 s.position =
      some (.ofGap front (readGap p.watches p.text)) := by
  rw [h.watches, h.position, h.text]
  exact Comment.skipBlanks?_eq front p.text p.watches

theorem round?_of_readGap (h : At t front s p) (hgap : readGap p.watches p.text = ⟨blanks, rest, none⟩) :
    s.round? g t = some (.ofReading s (front ++ blanks) (g.readItem rest)) := by
  have htext : t = (front ++ blanks) ++ rest := by
    rw [h.text, (readGap_eq_none_iff.mp hgap).1, List.append_assoc]
  have hskip := h.skipBlanks?_eq
  rw [hgap] at hskip
  simp only [round?, hskip, GapEnd.ofGap, Option.bind_eq_bind, Option.bind_some]
  rw [htext, readWord?_append]
  exact s.readItem?_append g (front ++ blanks) rest

theorem round?_of_step (h : At t front s p) (hstep : Step g p piece q) :
    s.round? g t = some (.goesOn (s.past piece)) := by
  obtain ⟨started, depth, rest⟩ := q
  obtain rfl := hstep.started
  obtain ⟨core, hgap, hitem, hdepth⟩ := step_iff.mp hstep
  rw [h.round?_of_readGap hgap, hitem, Round.ofReading, h.depth, hdepth, past, h.position,
    bytes_append]

theorem round?_of_halts (h : At t front s p) {stop : Stop} (hhalts : Halts g p blanks stop) :
    s.round? g t =
      some (.ends (if stop = .otherText then dropIndent (front ++ blanks) else front ++ blanks).bytes) := by
  have hskip := h.skipBlanks?_eq
  cases stop with
  | endOfText =>
    obtain ⟨htext, hblank, hline⟩ := hhalts
    have hgap := readGap_eq_some_iff.mpr (.inl ⟨rfl, rfl, rfl, htext ▸ hblank, htext ▸ hline⟩)
    rw [hgap] at hskip
    simp only [round?, hskip, GapEnd.ofGap, Option.bind_eq_bind, Option.bind_some]
    rw [h.text, htext]
    rfl
  | blankLine =>
    obtain ⟨hwatches, rest, hread⟩ := hhalts
    rw [readGap_eq_some_iff.mpr (.inr ⟨rfl, hwatches, hread⟩)] at hskip
    simp only [round?, hskip, GapEnd.ofGap, Option.bind_eq_bind, Option.bind_some]
    rfl
  | otherText =>
    obtain ⟨rest, htext, hblank, hline, hcore, hne, hitem⟩ := hhalts
    rw [h.round?_of_readGap (readGap_eq_none_iff.mpr ⟨htext, hblank, hcore, hne, hline⟩), hitem]
    rfl

theorem round?_of_fails (h : At t front s p) {flaw : ℕ → CommentError}
    (hfails : Fails g p blanks flaw) :
    s.round? g t = some (.fails (flaw (front ++ blanks).bytes)) := by
  obtain ⟨rest, hgap, hflaw⟩ := hfails
  rw [h.round?_of_readGap hgap]
  unfold Grammar.flaw? at hflaw
  split at hflaw
  · cases hflaw
    simp_all [Round.ofReading]
  · simp_all [Round.ofReading, h.depth]
  · cases hflaw

theorem past (h : At t front s p) (hstep : Step g p piece q) :
    At t (front ++ piece.text) (s.past piece) q where
  text := by rw [h.text, hstep.text, List.append_assoc]
  position := by simp [Scanner.past, behind, h.position, Piece.text, Nat.add_assoc]
  started := hstep.started.symm
  depth := by
    have hdepth := hstep.depth
    rw [← h.depth] at hdepth
    unfold Scanner.past behind
    cases hkind : piece.item.kind with
    | lineComment => simpa [hkind, ItemKind.depthAfter?] using hdepth
    | blockComment => simpa [hkind, ItemKind.depthAfter?] using hdepth
    | regionStart => simpa [hkind, ItemKind.depthAfter?] using hdepth
    | regionEnd =>
      cases hregions : s.regions with
      | nil => simp [hkind, hregions, ItemKind.depthAfter?] at hdepth
      | cons start outer => simpa [hkind, hregions, ItemKind.depthAfter?] using hdepth
  regions := by
    have hstart : t.IsBoundary (s.position + piece.blanks.bytes) := by
      have hfront : front ++ piece.blanks <+: t := h.isPrefix
        ⟨piece.item.text ++ q.text, by rw [hstep.text, Piece.text, List.append_assoc]⟩
      rw [h.position, ← bytes_append]
      exact isBoundary_of_isPrefix hfront
    intro start hmem
    unfold Scanner.past behind at hmem
    cases hkind : piece.item.kind with
    | lineComment => exact h.regions start (by simpa [hkind] using hmem)
    | blockComment => exact h.regions start (by simpa [hkind] using hmem)
    | regionStart =>
      obtain rfl | hmem : start = _ ∨ start ∈ s.regions := by simpa [hkind] using hmem
      · exact hstart
      · exact h.regions start hmem
    | regionEnd => exact h.regions start (List.mem_of_mem_tail (by simpa [hkind] using hmem))

end At

/-! ## Runs -/

/-- The scanner gets from the front of the text to `s` in `n` rounds. -/
inductive Reaches (g : Grammar) (t : Text) : ℕ → Scanner → Prop
  | start : Reaches g t 0 .start
  | round {n : ℕ} {s next : Scanner} (reaches : Reaches g t n s)
      (goesOn : s.round? g t = some (.goesOn next)) : Reaches g t (n + 1) next

theorem Reaches.exists_steps (h : Reaches g t n s) :
    ∃ pieces q, pieces.length = n ∧ Steps g (.start t) pieces q ∧ At t (piecesText pieces) s q := by
  induction h with
  | start => exact ⟨[], _, rfl, .nil, at_start t⟩
  | @round n s next _ goesOn ih =>
    obtain ⟨pieces, p, rfl, hsteps, hat⟩ := ih
    obtain ⟨piece, q, hstep⟩ | ⟨blanks, stop, hhalts⟩ | ⟨blanks, flaw, hfails⟩ := Place.cases g p
    · rw [hat.round?_of_step hstep] at goesOn
      cases goesOn
      refine ⟨pieces ++ [piece], q, by simp, hsteps.append (.cons hstep .nil), ?_⟩
      simpa [piecesText] using hat.past hstep
    · rw [hat.round?_of_halts hhalts] at goesOn
      cases goesOn
    · rw [hat.round?_of_fails hfails] at goesOn
      cases goesOn

end Scanner

theorem Step.bytes_pos (h : Step g p piece q) : 0 < piece.item.text.bytes := by
  obtain ⟨-, hne⟩ := Grammar.readItem_eq_item h.item
  obtain ⟨c, text, htext⟩ := List.exists_cons_of_ne_nil hne
  have hc := c.utf8Size_pos
  rw [htext, bytes_cons]
  omega

theorem Steps.length_le (h : Steps g p pieces q) : pieces.length ≤ (piecesText pieces).bytes := by
  induction h with
  | nil => exact Nat.zero_le _
  | @cons p q r piece pieces step _ ih =>
    have hpos := step.bytes_pos
    have htext : piecesText (piece :: pieces) = piece.text ++ piecesText pieces := rfl
    rw [htext, bytes_append, Piece.text, bytes_append, List.length_cons]
    omega

namespace Scanner

theorem run?_of_steps (h : Steps g p pieces q) (hat : At t front s p) (rounds : ℕ) :
    run? g t (rounds + pieces.length) s = run? g t rounds (pieces.foldl past s) := by
  induction h generalizing s front with
  | nil => rfl
  | @cons p q r piece pieces step _ ih =>
    rw [List.length_cons, ← Nat.add_assoc, run?, hat.round?_of_step step]
    exact ih (hat.past step)

theorem At.pasts (hat : At t front s p) (h : Steps g p pieces q) :
    At t (front ++ piecesText pieces) (pieces.foldl Scanner.past s) q := by
  induction h generalizing s front with
  | nil => simpa [piecesText] using hat
  | cons step _ ih => simpa [piecesText] using ih (hat.past step)

theorem getLast?_regions_past (hat : At t front s p) (hstep : Step g p piece q) (hopen : q.depth ≠ 0) :
    (s.past piece).regions.getLast? =
      if p.depth = 0 then some (front ++ piece.blanks).bytes else s.regions.getLast? := by
  have hdepth := hstep.depth
  rw [← hat.depth] at hdepth ⊢
  rw [past, behind, hat.position, bytes_append]
  cases hkind : piece.item.kind with
  | lineComment | blockComment =>
    obtain hsame : s.regions.length = q.depth := by simpa [hkind, ItemKind.depthAfter?] using hdepth
    rw [if_neg (hsame ▸ hopen)]
  | regionStart => cases hregions : s.regions <;> simp
  | regionEnd =>
    rcases hregions : s.regions with _ | ⟨inner, _ | ⟨start, outer⟩⟩
    · simp [hkind, hregions, ItemKind.depthAfter?] at hdepth
    · simp only [hkind, hregions, ItemKind.depthAfter?, List.length_singleton] at hdepth
      exact absurd (Option.some.inj hdepth).symm hopen
    · simp

theorem getLast?_regions (h : Steps g p pieces q) (hat : At t front s p) :
    (pieces.foldl past s).regions.getLast? =
      match closedCount? p.depth pieces with
      | some n => (pieces.drop n).head?.map fun opening =>
          (front ++ (piecesText (pieces.take n) ++ opening.blanks)).bytes
      | none => s.regions.getLast? := by
  induction h generalizing s front with
  | @nil p =>
    by_cases hd : p.depth = 0
    · have hnone : s.regions = [] := List.length_eq_zero_iff.mp (hat.depth.trans hd)
      simp [closedCount?, hd, hnone]
    · simp [closedCount?, hd]
  | @cons p q r piece pieces step _ ih =>
    rw [List.foldl_cons, ih (hat.past step)]
    simp only [closedCount?, step.depth, Option.bind_some]
    cases hcount : closedCount? q.depth pieces with
    | some n =>
      have htext : piecesText (piece :: pieces.take n) = piece.text ++ piecesText (pieces.take n) := rfl
      simp [htext]
    | none =>
      have hopen : q.depth ≠ 0 := by
        intro hzero
        obtain ⟨n, hn⟩ := exists_closedCount?_zero pieces
        simp [← hzero, hcount] at hn
      rw [getLast?_regions_past hat step hopen]
      by_cases hd : p.depth = 0 <;> simp [hd, piecesText]

theorem finish?_of_steps {scan : Scan} (h : Steps g (.start t) scan.pieces q)
    (hn : closedCount? 0 scan.pieces = some n) (hne : scan.pieces ≠ []) :
    (scan.pieces.foldl past .start).finish? t
        (if scan.stop = .otherText then dropIndent scan.text else scan.text).bytes =
      some (scan.found n).bytes := by
  have hstarted := ((at_start t).pasts h).started.trans (h.started hne)
  have houtermost := getLast?_regions h (at_start t)
  simp only [Place.start, hn, List.nil_append] at houtermost
  rw [finish?, if_pos hstarted, houtermost]
  cases hdrop : scan.pieces.drop n with
  | nil =>
    rw [Scan.found_of_length_le (List.drop_eq_nil_iff.mp hdrop)]
    rfl
  | cons opening more =>
    obtain ⟨rest, hrest⟩ : piecesText (scan.pieces.take n) ++ opening.blanks <+: t := by
      refine ⟨opening.item.text ++ piecesText more ++ q.text, ?_⟩
      have htext : t = piecesText scan.pieces ++ q.text := h.text
      rw [htext, piecesText_of_drop hdrop]
      simp [Piece.text]
    rw [Scan.found_of_drop hdrop]
    simp only [List.head?_cons, Option.map_some]
    rw [← hrest, indentStart?_append]

theorem exists_run?_eq (h : Steps g (.start t) pieces q) :
    ∃ rounds, run? g t (t.bytes + 1) .start = run? g t (rounds + 1) (pieces.foldl past .start) := by
  have htext : t = piecesText pieces ++ q.text := h.text
  have hlength : pieces.length ≤ t.bytes := by
    have hle := h.length_le
    rw [htext, bytes_append]
    omega
  refine ⟨t.bytes - pieces.length, ?_⟩
  rw [← run?_of_steps h (at_start t)]
  congr 1
  omega

theorem leading?_eq (g : Grammar) (t : Text) : leading? g t (t.bytes + 1) = some (g.leading t) := by
  cases hleading : g.leading t with
  | error cause =>
    obtain ⟨pieces, q, blanks, flaw, hsteps, hfails, rfl⟩ := leading_eq_error_iff.mp hleading
    obtain ⟨rounds, hrun⟩ := exists_run?_eq hsteps
    have hat := (at_start t).pasts hsteps
    rw [leading?, hrun, run?, hat.round?_of_fails hfails]
    rfl
  | ok comment =>
    obtain ⟨scan, q, hsteps, hhalts, rfl⟩ := leading_eq_ok_iff.mp hleading
    obtain ⟨rounds, hrun⟩ := exists_run?_eq hsteps
    obtain ⟨n, hn⟩ := exists_closedCount?_zero scan.pieces
    have hat := (at_start t).pasts hsteps
    have hleading : scan.leading =
        if scan.pieces = [] || (scan.found n).isAllBlank then [] else scan.found n := by
      rw [Scan.leading, hn]
      rfl
    rw [leading?, hrun, run?, hat.round?_of_halts hhalts, List.nil_append, hleading]
    by_cases hne : scan.pieces = []
    · have hslice : t.sliceTo? 0 = some [] := sliceTo?_append [] t
      simp [hne, finish?, start, hslice]
    · obtain ⟨rest, hrest⟩ := Scan.found_isPrefix hsteps hhalts n
      have hslice : t.sliceTo? (scan.found n).bytes = some (scan.found n) := by
        conv_lhs => rw [← show _ = t from hrest]
        exact sliceTo?_append ..
      have hfinish := finish?_of_steps hsteps hn hne
      rw [Scan.text] at hfinish
      simp [hfinish, hslice, hne]

end Scanner

/-! ## Boundaries -/

/-- The byte that an error names. -/
def CommentError.offset : CommentError → ℕ
  | unterminatedBlockComment offset | unmatchedRegionClose offset => offset

/-- The bytes that a scanner keeps are boundaries. -/
structure Scanner.OnBoundaries (t : Text) (s : Scanner) : Prop where
  position : t.IsBoundary s.position
  regions : ∀ start ∈ s.regions, t.IsBoundary start

/-- A round that goes on gets on, and all bytes that a round comes to are boundaries. -/
def Round.Advances (t : Text) (s : Scanner) : Round → Prop
  | .goesOn next => s.position < next.position ∧ next.OnBoundaries t
  | .ends stop => t.IsBoundary stop
  | .fails cause => t.IsBoundary cause.offset

theorem Scanner.At.onBoundaries (h : At t front s p) : s.OnBoundaries t where
  position := h.position ▸ isBoundary_of_isPrefix ⟨p.text, h.text.symm⟩
  regions := h.regions

theorem Fails.offset_eq {flaw : ℕ → CommentError} (h : Fails g p blanks flaw) (offset : ℕ) :
    (flaw offset).offset = offset := by
  obtain ⟨rest, -, hflaw⟩ := h
  obtain rfl | rfl := flaw_cases hflaw <;> rfl

theorem Scanner.At.exists_advances (h : At t front s p) (g : Grammar) :
    ∃ round, s.round? g t = some round ∧ round.Advances t s := by
  obtain ⟨piece, q, hstep⟩ | ⟨blanks, stop, hhalts⟩ | ⟨blanks, flaw, hfails⟩ := Place.cases g p
  · refine ⟨_, h.round?_of_step hstep, ?_, (h.past hstep).onBoundaries⟩
    have hpos := hstep.bytes_pos
    show s.position < s.position + piece.blanks.bytes + piece.item.text.bytes
    omega
  · refine ⟨_, h.round?_of_halts hhalts, isBoundary_of_isPrefix ?_⟩
    split
    · exact (dropIndent_isPrefix _).trans (h.isPrefix hhalts.isPrefix)
    · exact h.isPrefix hhalts.isPrefix
  · obtain ⟨rest, htext, -⟩ := hfails.exists_rest
    refine ⟨_, h.round?_of_fails hfails, ?_⟩
    rw [Round.Advances, hfails.offset_eq]
    exact isBoundary_of_isPrefix (h.isPrefix ⟨rest, htext.symm⟩)

theorem Scanner.exists_run?_isBoundary (g : Grammar) (t : Text) :
    ∃ result, run? g t (t.bytes + 1) .start = some result ∧
      (∀ stop, result = .ok stop → t.IsBoundary stop) ∧
      ∀ cause, result = .error cause → t.IsBoundary cause.offset := by
  have hleading := leading?_eq g t
  unfold leading? at hleading
  cases hrun : run? g t (t.bytes + 1) .start with
  | none => simp [hrun] at hleading
  | some result =>
    refine ⟨result, rfl, ?_, ?_⟩
    · rintro stop rfl
      rw [← isSome_sliceTo?_iff]
      by_contra hnone
      simp [hrun, Option.not_isSome_iff_eq_none.mp hnone] at hleading
    · rintro cause rfl
      have herror : g.leading t = .error cause := by simpa [hrun] using hleading.symm
      obtain ⟨pieces, q, blanks, flaw, hsteps, hfails, rfl⟩ := leading_eq_error_iff.mp herror
      obtain ⟨rest, htext, -⟩ := hfails.exists_rest
      have hat := (at_start t).pasts hsteps
      rw [hfails.offset_eq]
      exact isBoundary_of_isPrefix (hat.isPrefix ⟨rest, htext.symm⟩)

/-- Whatever the tokens are and whatever the text is, every round of the scanner has a result, so no
slice of it is off a boundary. A round that goes on gets to a later boundary, so there are never more
of them than bytes, and with one more round the scan is over: behind the leading comment, or with an
error at a boundary. What the scanner finds is the leading comment of the text. -/
theorem scanner_stays_on_boundaries
    (line blockStart blockEnd regionStart regionEnd : Option Text) (t : Text) :
    let g := Grammar.ofTexts line blockStart blockEnd regionStart regionEnd
    (∀ n s, Scanner.Reaches g t n s →
      n ≤ s.position ∧ s.position ≤ t.bytes ∧ s.OnBoundaries t ∧
        ∃ round, s.round? g t = some round ∧ round.Advances t s) ∧
    (∃ result, Scanner.run? g t (t.bytes + 1) .start = some result ∧
      (∀ stop, result = .ok stop → t.IsBoundary stop) ∧
      ∀ cause, result = .error cause → t.IsBoundary cause.offset) ∧
    Scanner.leading? g t (t.bytes + 1) = some (g.leading t) := by
  intro g
  refine ⟨fun n s hreaches => ?_, Scanner.exists_run?_isBoundary g t, Scanner.leading?_eq g t⟩
  obtain ⟨pieces, q, rfl, hsteps, hat⟩ := hreaches.exists_steps
  have hboundaries := hat.onBoundaries
  refine ⟨?_, hboundaries.position.le, hboundaries, hat.exists_advances g⟩
  rw [hat.position]
  exact hsteps.length_le

end Masthead.Comment
