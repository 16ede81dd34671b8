import Masthead.Proofs.LineEnd
import Masthead.Proofs.Offset

/-!
# Scanning by offsets

A scanner keeps the whole text and moves a byte offset through it. It slices the text there, to see
the next character, to cut off a word, to search for a closing token or to drop indentation. Here
every slice is checked: a part of a round has no result if it slices the text off a boundary. At a
boundary each part has one, and reads what `readGap` and `readItem` read of the text behind it.
-/
namespace Masthead.Comment
open Text

/-- Where a scanner stands: the byte, whether it has read an item, and the bytes of the region starts
that are still open, the innermost first. -/
structure Scanner where
  position : ℕ
  started : Bool
  regions : List ℕ

def Scanner.start : Scanner := ⟨0, false, []⟩

/-- How the blanks in front of a word end. -/
inductive GapEnd where
  | word (position : ℕ)
  | endOfText
  | blankLine (stop : ℕ)

/-- What a round comes to: the scanner goes on from where it has got to, the items end at a byte, or
there is a malformed item. -/
inductive Round where
  | goesOn (next : Scanner)
  | ends (stop : ℕ)
  | fails (cause : CommentError)

def behindLineEnd (t : Text) (position : ℕ) : ℕ :=
  ((LineEnd.next? t position none).map LineEnd.stop).getD (position + 1)

/-- The byte at which a line ends, in front of its line ending. -/
def lineEnd (t : Text) (position : ℕ) : ℕ :=
  ((LineEnd.next? t position none).map LineEnd.index).getD t.bytes

/-- The byte in front of the indentation that ends at a byte. -/
def indentStart? (t : Text) (position : ℕ) : Option ℕ :=
  (t.sliceTo? position).map fun before => (dropIndent before).bytes

theorem lt_behindLineEnd (t : Text) (position : ℕ) : position < behindLineEnd t position := by
  unfold behindLineEnd
  cases h : LineEnd.next? t position none with
  | none => exact Nat.lt_succ_self position
  | some found => exact (LineEnd.of_next?_eq_some h).1.trans_lt found.index_lt_stop

/-- Skips blanks. The line endings are counted in 32 bits, and the count may wrap around where no
blank line is watched for. -/
def skipBlanks? (t : Text) (watches : Bool) (breaks : Int32) (position : ℕ) : Option GapEnd :=
  match _h : t.sliceFrom? position with
  | none => none
  | some [] => some .endOfText
  | some (c :: _) =>
    if !isBlank c then some (.word position)
    else if isLineBreak c then
      if watches && 2 ≤ breaks + 1 then some (.blankLine (behindLineEnd t position))
      else skipBlanks? t watches (breaks + 1) (behindLineEnd t position)
    else skipBlanks? t watches breaks (position + c.utf8Size)
termination_by t.bytes - position
decreasing_by
  all_goals
    have hposition := lt_bytes_of_sliceFrom? _h
    have hbehind := lt_behindLineEnd t position
    have hc := c.utf8Size_pos
    omega

def readWord? (t : Text) (position : ℕ) : Option (Text × ℕ) := do
  let rest ← t.sliceFrom? position
  let length := rest.firstWord.bytes
  let word ← rest.sliceTo? length
  some (word, position + length)

/-- Whether `first` and the word behind it, which may follow spaces and tabs, spell the token, and the
byte behind that word. -/
def spellsRegionEnd? (t : Text) (token : Token) (first : Text) (behind : ℕ) : Option (Bool × ℕ) := do
  let rest ← t.sliceFrom? behind
  let gap := rest.bytes - bytes (rest.dropWhile fun c => c == ' ' || c == '\t')
  let (second, stop) ← readWord? t (behind + gap)
  some (second != [] && first ++ second == token.text.filter (!isBlank ·), stop)

namespace Scanner

/-- Closes the innermost region with a marker that ends at `behind`. -/
def closeRegion (s : Scanner) (t : Text) (start behind : ℕ) : Round :=
  match s.regions with
  | [] => .fails (.unmatchedRegionClose start)
  | _ :: outer => .goesOn ⟨lineEnd t behind, true, outer⟩

/-- Reads a block comment whose opening token stands at `start`. -/
def closeBlock? (s : Scanner) (t : Text) (opener closer : Token) (start : ℕ) : Option Round := do
  let behind := start + opener.text.bytes
  let rest ← t.sliceFrom? behind
  match splitAtFirst? closer.text rest with
  | none => some (.fails (.unterminatedBlockComment start))
  | some (inner, _) =>
    some (.goesOn ⟨behind + inner.bytes + closer.text.bytes, true, s.regions⟩)

/-- Reads a region end, if the word or the word with the next one spells it. -/
def readRegionEnd? (s : Scanner) (g : Grammar) (t : Text) (start : ℕ) (word : Text) (behind : ℕ) :
    Option Round :=
  let other := (indentStart? t start).map .ends
  match g.regionEnd with
  | none => other
  | some token =>
    if word == token.text then some (s.closeRegion t start behind)
    else if word != [] && word.isPrefixOf token.text then do
      let (spelled, stop) ← spellsRegionEnd? t token word behind
      if spelled then some (s.closeRegion t start stop) else other
    else other

def readItem? (s : Scanner) (g : Grammar) (t : Text) (start : ℕ) (word : Text) (behind : ℕ) :
    Option Round :=
  if g.startsLineComment word then some (.goesOn ⟨lineEnd t behind, true, s.regions⟩)
  else match g.blockAt? word with
    | some (opener, closer) => s.closeBlock? t opener closer start
    | none =>
      if g.regionStart.any (word == ·.text) then
        some (.goesOn ⟨lineEnd t behind, true, start :: s.regions⟩)
      else s.readRegionEnd? g t start word behind

/-- One round: the blanks, a word and the item that it starts. -/
def round? (s : Scanner) (g : Grammar) (t : Text) : Option Round := do
  match ← skipBlanks? t (s.started && s.regions.isEmpty) 0 s.position with
  | .endOfText => some (.ends t.bytes)
  | .blankLine stop => some (.ends stop)
  | .word start => do
    let (word, behind) ← readWord? t start
    s.readItem? g t start word behind

/-- Where the leading comment ends if the items end at `stop`. A region that is still open is no part
of it. -/
def finish? (s : Scanner) (t : Text) (stop : ℕ) : Option ℕ :=
  if s.started then
    match s.regions.getLast? with
    | some outermost => indentStart? t outermost
    | none => some stop
  else some 0

/-- The end of the leading comment, if it takes no more than a number of rounds to find it. -/
def run? (g : Grammar) (t : Text) : ℕ → Scanner → Option (Except CommentError ℕ)
  | 0, _ => none
  | rounds + 1, s =>
    match s.round? g t with
    | none => none
    | some (.goesOn next) => run? g t rounds next
    | some (.ends stop) => (s.finish? t stop).map .ok
    | some (.fails cause) => some (.error cause)

/-- The leading comment of a text, if it is found in `rounds` rounds. -/
def leading? (g : Grammar) (t : Text) (rounds : ℕ) : Option (Except CommentError Text) :=
  match run? g t rounds .start with
  | none => none
  | some (.error cause) => some (.error cause)
  | some (.ok stop) =>
    (t.sliceTo? stop).map fun comment => .ok (if comment.isAllBlank then [] else comment)

end Scanner

variable {g : Grammar} {front text passed rest : Text} {e : LineEnding} {watches : Bool}

/-! ## Line ends and indentation -/

theorem exists_ending {c : Char} (h : isLineBreak c) (t : Text) :
    ∃ e : LineEnding, ∃ rest, c :: t = e.text ++ rest ∧ (e = .cr → rest.head? ≠ some '\n') := by
  rcases eq_cr_or_eq_lf h with rfl | rfl
  · by_cases hlf : t.head? = some '\n'
    · obtain ⟨rest, rfl⟩ := List.head?_eq_some_iff.mp hlf
      exact ⟨.crlf, rest, rfl, nofun⟩
    · exact ⟨.cr, t, rfl, fun _ => hlf⟩
  · exact ⟨.lf, t, rfl, nofun⟩

theorem next?_ending (h : e = .cr → rest.head? ≠ some '\n')
    (hpassed : ∀ c ∈ passed, isLineBreak c = false) (front : Text) :
    LineEnd.next? (front ++ (passed ++ (e.text ++ rest))) front.bytes none =
      some ⟨(front ++ passed).bytes, e⟩ := by
  rw [LineEnd.next?, LineEnd.firstIn_before (by simp), Nat.zero_add,
    LineEnd.firstIn_unbroken hpassed, LineEnd.firstIn_text (Nat.le_add_right _ _) _ h, bytes_append]
  simp only [bytes_append]
  omega

theorem next?_unbroken (h : ∀ c ∈ text, isLineBreak c = false) (front : Text) :
    LineEnd.next? (front ++ text) front.bytes none = none := by
  rw [LineEnd.next?, LineEnd.firstIn_before (by simp), ← List.append_nil text,
    LineEnd.firstIn_unbroken h]
  rfl

theorem behindLineEnd_append (h : e = .cr → rest.head? ≠ some '\n') (front : Text) :
    behindLineEnd (front ++ (e.text ++ rest)) front.bytes = (front ++ e.text).bytes := by
  have hnone : ∀ c ∈ ([] : Text), isLineBreak c = false := nofun
  have hnext := next?_ending h hnone front
  rw [List.nil_append, List.append_nil] at hnext
  rw [behindLineEnd, hnext, bytes_append]
  rfl

theorem lineEnd_of_fillsLine {line behind : Text} (h : FillsLine line behind) (front : Text) :
    lineEnd (front ++ (line ++ behind)) front.bytes = (front ++ line).bytes := by
  cases behind with
  | nil =>
    rw [List.append_nil, lineEnd, next?_unbroken h.1]
    rfl
  | cons c behind =>
    obtain ⟨e, rest, hending, hwhole⟩ := exists_ending (h.2 c rfl) behind
    rw [hending, lineEnd, next?_ending hwhole h.1]
    rfl

/-- A line ends where its first line break stands, from wherever in the line it is searched for. -/
theorem lineEnd_append (h : ∀ c ∈ passed, isLineBreak c = false) (front rest : Text) :
    lineEnd (front ++ (passed ++ rest)) (front.bytes + passed.bytes) =
      front.bytes + (passed ++ rest).firstLine.bytes := by
  have hline := lineEnd_of_fillsLine (fillsLine_firstLine rest) (front ++ passed)
  rwa [firstLine_append_dropWhile, List.append_assoc, List.append_assoc,
    ← firstLine_append_of_unbroken h, bytes_append, bytes_append] at hline

@[simp] theorem indentStart?_append (front rest : Text) :
    indentStart? (front ++ rest) front.bytes = some (dropIndent front).bytes := by
  rw [indentStart?, sliceTo?_append]
  rfl

/-! ## Blanks -/

/-- What was read of the blanks behind `front`, told by offsets. -/
def GapEnd.ofBlanks (front : Text) : Text × Text × ℕ → GapEnd
  | (blanks, rest, missing) =>
    if missing = 0 then .blankLine (front ++ blanks).bytes
    else if rest = [] then .endOfText
    else .word (front ++ blanks).bytes

@[simp] theorem GapEnd.ofBlanks_append (front read blanks rest : Text) (missing : ℕ) :
    ofBlanks front (read ++ blanks, rest, missing) = ofBlanks (front ++ read) (blanks, rest, missing) := by
  simp [ofBlanks]

theorem skipBlanks?_append (front text : Text) (watches : Bool) (breaks : Int32) :
    skipBlanks? (front ++ text) watches breaks front.bytes =
      match text with
      | [] => some .endOfText
      | c :: _ =>
        if !isBlank c then some (.word front.bytes)
        else if isLineBreak c then
          if watches && 2 ≤ breaks + 1 then
            some (.blankLine (behindLineEnd (front ++ text) front.bytes))
          else skipBlanks? (front ++ text) watches (breaks + 1)
            (behindLineEnd (front ++ text) front.bytes)
        else skipBlanks? (front ++ text) watches breaks (front.bytes + c.utf8Size) := by
  have hslice := sliceFrom?_append front text
  rw [skipBlanks?]
  split
  · rename_i heq
    cases hslice.symm.trans heq
  · rename_i heq
    cases hslice.symm.trans heq
    rfl
  · rename_i heq
    cases hslice.symm.trans heq
    rfl

theorem skipBlanks?_ending (h : e = .cr → rest.head? ≠ some '\n') (front : Text) (watches : Bool)
    (breaks : Int32) : skipBlanks? (front ++ (e.text ++ rest)) watches breaks front.bytes =
      if watches && 2 ≤ breaks + 1 then some (.blankLine (front ++ e.text).bytes)
      else skipBlanks? ((front ++ e.text) ++ rest) watches (breaks + 1) (front ++ e.text).bytes := by
  obtain ⟨c, ending, hc, hbreak⟩ : ∃ c ending, e.text = c :: ending ∧ isLineBreak c := by
    cases e <;> exact ⟨_, _, rfl, rfl⟩
  rw [skipBlanks?_append, behindLineEnd_append h, List.append_assoc, hc]
  simp [isBlank_of_isLineBreak hbreak, hbreak]

theorem skipBlanks?_cons {c : Char} (hc : isLineBreak c = false) (front rest : Text) (watches : Bool)
    (breaks : Int32) : skipBlanks? (front ++ c :: rest) watches breaks front.bytes =
      if isBlank c then skipBlanks? ((front ++ [c]) ++ rest) watches breaks (front ++ [c]).bytes
      else some (.word front.bytes) := by
  rw [skipBlanks?_append]
  cases hb : isBlank c <;> simp [hc, hb]

/-- The count of line endings tells how many are missing to a blank line. Where none is watched for,
the text has fewer than are missing. -/
def Counts (watches : Bool) (text : Text) (breaks : Int32) (missing : ℕ) : Prop :=
  if watches then breaks = 0 ∧ missing = 2 ∨ breaks = 1 ∧ missing = 1
  else (LineEnding.endings text).length < missing

theorem Counts.missing_ne_zero {breaks : Int32} {missing : ℕ}
    (h : Counts watches text breaks missing) : missing ≠ 0 := by
  unfold Counts at h
  split at h <;> omega

/-- Either a blank line has been read with a line ending, or the count still tells. -/
theorem Counts.ending {breaks : Int32} {missing : ℕ} (hwhole : e = .cr → rest.head? ≠ some '\n')
    (h : Counts watches (e.text ++ rest) breaks (missing + 1)) :
    (watches && 2 ≤ breaks + 1) ∧ missing = 0 ∨
      ¬ (watches && 2 ≤ breaks + 1) ∧ Counts watches rest (breaks + 1) missing := by
  unfold Counts at h ⊢
  cases watches with
  | false =>
    rw [LineEnding.endings_text_append (by rintro ⟨he, hlf⟩; exact hwhole he hlf)] at h
    exact .inr ⟨Bool.false_ne_true, Nat.lt_of_succ_lt_succ h⟩
  | true =>
    obtain ⟨rfl, hmissing⟩ | ⟨rfl, hmissing⟩ := h
    · exact .inr ⟨by decide, .inr ⟨by decide, by omega⟩⟩
    · exact .inl ⟨by decide, by omega⟩

theorem Counts.cons {c : Char} {breaks : Int32} {missing : ℕ} (hc : isLineBreak c = false)
    (h : Counts watches (c :: text) breaks missing) : Counts watches text breaks missing := by
  unfold Counts at h ⊢
  rwa [LineEnding.endings_cons hc] at h

theorem skipBlanks?_of_counts {breaks : Int32} {missing : ℕ}
    (h : Counts watches text breaks missing) (front : Text) :
    skipBlanks? (front ++ text) watches breaks front.bytes =
      some (.ofBlanks front (takeBlanks missing text)) := by
  induction text using LineEnding.ending_induction generalizing front breaks missing with
  | nil =>
    rw [skipBlanks?_append, takeBlanks_nil]
    simp [GapEnd.ofBlanks, h.missing_ne_zero]
  | ending e text hwhole ih =>
    obtain ⟨missing, rfl⟩ := Nat.exists_eq_succ_of_ne_zero h.missing_ne_zero
    rw [skipBlanks?_ending hwhole, takeBlanks_ending_append hwhole, GapEnd.ofBlanks_append]
    obtain ⟨hline, rfl⟩ | ⟨hline, hcounts⟩ := h.ending hwhole
    · rw [if_pos hline, takeBlanks_zero]
      simp [GapEnd.ofBlanks]
    · rw [if_neg hline, ih hcounts]
  | cons c text hc ih =>
    obtain ⟨missing, rfl⟩ := Nat.exists_eq_succ_of_ne_zero h.missing_ne_zero
    rw [skipBlanks?_cons hc, takeBlanks_cons hc]
    split
    · rw [ih (h.cons hc), ← GapEnd.ofBlanks_append]
      rfl
    · simp [GapEnd.ofBlanks]

def GapEnd.ofGap (front : Text) (gap : Gap) : GapEnd :=
  match gap.stop with
  | none => .word (front ++ gap.blanks).bytes
  | some .blankLine => .blankLine (front ++ gap.blanks).bytes
  | some _ => .endOfText

theorem exists_takeBlanks_eq {breaks : ℕ} (h : (LineEnding.endings text).length < breaks) :
    ∃ missing, missing ≠ 0 ∧
      takeBlanks breaks text = (text.takeWhile isBlank, text.trimStart, missing) := by
  have hread := takeBlanks_append breaks text
  have hmissing : (takeBlanks breaks text).2.2 ≠ 0 := by
    have hcount := LineEnding.missing_add_endings breaks text
    have hle := LineEnding.length_endings_le_append (takeBlanks breaks text).1
      (takeBlanks breaks text).2.1
    rw [hread] at hle
    omega
  have hrest := takeBlanks_rest hmissing
  have hblanks : (takeBlanks breaks text).1 = text.takeWhile isBlank := by
    rw [hrest] at hread
    exact List.append_cancel_right (hread.trans (takeWhile_append_trimStart text).symm)
  exact ⟨_, hmissing, Prod.ext hblanks (Prod.ext hrest rfl)⟩

theorem skipBlanks?_eq (front text : Text) (watches : Bool) :
    skipBlanks? (front ++ text) watches 0 front.bytes =
      some (.ofGap front (readGap watches text)) := by
  cases watches with
  | true =>
    have hcounts : Counts true text 0 2 := Or.inl ⟨rfl, rfl⟩
    rw [skipBlanks?_of_counts hcounts]
    by_cases hmissing : (takeBlanks 2 text).2.2 = 0
    · simp [GapEnd.ofGap, GapEnd.ofBlanks, readGap, hmissing]
    · by_cases hrest : (takeBlanks 2 text).2.1 = [] <;>
        simp [GapEnd.ofGap, GapEnd.ofBlanks, readGap, hmissing, hrest]
  | false =>
    have hcounts : Counts false text 0 ((LineEnding.endings text).length + 1) := Nat.lt_succ_self _
    obtain ⟨missing, hmissing, hread⟩ := exists_takeBlanks_eq hcounts
    have hrest : text.dropWhile isBlank = text.trimStart := rfl
    rw [skipBlanks?_of_counts hcounts, hread]
    by_cases hnil : text.trimStart = [] <;>
      simp [GapEnd.ofGap, GapEnd.ofBlanks, readGap, hmissing, hrest, hnil]

/-! ## Words -/

theorem unbroken_firstWord (t : Text) : ∀ c ∈ t.firstWord, isLineBreak c = false := fun _ hc =>
  isLineBreak_eq_false_of_isBlank_eq_false (isBlank_of_mem_firstWord hc)

theorem firstWord_append_dropWhile (t : Text) : t.firstWord ++ t.dropWhile (!isBlank ·) = t :=
  List.takeWhile_append_dropWhile

theorem readWord?_append (front text : Text) :
    readWord? (front ++ text) front.bytes =
      some (text.firstWord, (front ++ text.firstWord).bytes) := by
  have hword := sliceTo?_append text.firstWord (text.dropWhile (!isBlank ·))
  rw [firstWord_append_dropWhile] at hword
  simp [readWord?, hword]

theorem spellsRegionEnd?_append (front text : Text) (token : Token) :
    ∃ passed rest, text = passed ++ rest ∧ (∀ c ∈ passed, isLineBreak c = false) ∧
      spellsRegionEnd? (front ++ text) token text.firstWord (front ++ text.firstWord).bytes =
        some (Grammar.secondWord text != [] &&
          text.firstWord ++ Grammar.secondWord text == token.text.filter (!isBlank ·),
          (front ++ passed).bytes) := by
  obtain ⟨rest, hrest⟩ : ∃ rest : Text, rest = text.dropWhile (!isBlank ·) := ⟨_, rfl⟩
  obtain ⟨gap, hgap⟩ : ∃ gap : Text, gap = rest.takeWhile fun c => c == ' ' || c == '\t' := ⟨_, rfl⟩
  obtain ⟨core, hcore⟩ : ∃ core : Text, core = rest.dropWhile fun c => c == ' ' || c == '\t' :=
    ⟨_, rfl⟩
  have hsecond : Grammar.secondWord text = core.firstWord := by rw [hcore, hrest]; rfl
  have htext : text = text.firstWord ++ rest := by rw [hrest, firstWord_append_dropWhile]
  have hsplit : rest = gap ++ core := by rw [hgap, hcore, List.takeWhile_append_dropWhile]
  have hslice : (front ++ text).sliceFrom? (front ++ text.firstWord).bytes = some rest := by
    have happend := sliceFrom?_append (front ++ text.firstWord) rest
    rwa [List.append_assoc, ← htext] at happend
  have hword : readWord? (front ++ text) ((front ++ text.firstWord).bytes + gap.bytes) =
      some (core.firstWord, (front ++ (text.firstWord ++ gap ++ core.firstWord)).bytes) := by
    have hread := readWord?_append (front ++ text.firstWord ++ gap) core
    rw [bytes_append _ gap, List.append_assoc, ← hsplit, List.append_assoc, ← htext] at hread
    simpa [Nat.add_assoc] using hread
  refine ⟨text.firstWord ++ gap ++ core.firstWord, core.dropWhile (!isBlank ·), ?_, ?_, ?_⟩
  · rw [List.append_assoc, firstWord_append_dropWhile, List.append_assoc, ← hsplit, ← htext]
  · intro c hc
    simp only [List.mem_append] at hc
    obtain (hc | hc) | hc := hc
    · exact unbroken_firstWord text c hc
    · rw [hgap] at hc
      exact isLineBreak_of_space_or_tab (by simpa using List.mem_takeWhile_imp hc)
    · exact unbroken_firstWord core c hc
  · have hlength : rest.bytes - bytes (rest.dropWhile fun c => c == ' ' || c == '\t') = gap.bytes := by
      rw [← hcore, hsplit, bytes_append, Nat.add_sub_cancel_right]
    rw [spellsRegionEnd?, hslice]
    simp only [Option.bind_eq_bind, Option.bind_some, hlength, hword, hsecond]

/-! ## Items -/

/-- The scanner behind an item that stands at `start`. -/
def Scanner.behind (s : Scanner) (start : ℕ) (item : Item) : Scanner where
  position := start + item.text.bytes
  started := true
  regions :=
    match item.kind with
    | .regionStart => start :: s.regions
    | .regionEnd => s.regions.tail
    | _ => s.regions

/-- What a round comes to by what is read behind `front`. -/
def Round.ofReading (s : Scanner) (front : Text) : Reading → Round
  | .other => .ends (dropIndent front).bytes
  | .unterminated => .fails (.unterminatedBlockComment front.bytes)
  | .item item _ =>
    match item.kind.depthAfter? s.regions.length with
    | none => .fails (.unmatchedRegionClose front.bytes)
    | some _ => .goesOn (s.behind front.bytes item)

namespace Scanner

variable (s : Scanner)

theorem closeRegion_append (h : ∀ c ∈ passed, isLineBreak c = false) (front rest : Text) :
    s.closeRegion (front ++ (passed ++ rest)) front.bytes (front ++ passed).bytes =
      .ofReading s front (.wholeLine .regionEnd (passed ++ rest)) := by
  unfold closeRegion
  cases hregions : s.regions with
  | nil => simp [Round.ofReading, Reading.wholeLine, hregions, ItemKind.depthAfter?]
  | cons start outer =>
    simp [Round.ofReading, Reading.wholeLine, hregions, ItemKind.depthAfter?, behind,
      lineEnd_append h]

theorem closeBlock?_append {opener closer : Token} (h : opener.text <+: text) (front : Text) :
    s.closeBlock? (front ++ text) opener closer front.bytes =
      some (.ofReading s front (Grammar.readBlock opener closer text)) := by
  obtain ⟨inside, rfl⟩ := h
  have hslice := sliceFrom?_append (front ++ opener.text) inside
  rw [List.append_assoc, bytes_append] at hslice
  simp only [closeBlock?, hslice, Option.bind_eq_bind, Option.bind_some, Grammar.readBlock,
    List.drop_left, List.take_left]
  cases splitAtFirst? closer.text inside with
  | none => rfl
  | some found => simp [Round.ofReading, ItemKind.depthAfter?, behind, Nat.add_assoc]

theorem readRegionEnd?_append (g : Grammar) (front text : Text) :
    s.readRegionEnd? g (front ++ text) front.bytes text.firstWord (front ++ text.firstWord).bytes =
      some (.ofReading s front
        (if g.closesRegion text then .wholeLine .regionEnd text else .other)) := by
  have hother : (indentStart? (front ++ text) front.bytes).map Round.ends =
      some (.ofReading s front .other) := by
    rw [indentStart?_append]
    rfl
  unfold readRegionEnd? Grammar.closesRegion
  cases g.regionEnd with
  | none => exact hother
  | some token =>
    obtain ⟨passed, rest, htext, hpassed, hspells⟩ := spellsRegionEnd?_append front text token
    cases hword : text.firstWord == token.text with
    | true =>
      have hclose := s.closeRegion_append (unbroken_firstWord text) front
        (text.dropWhile (!isBlank ·))
      rw [firstWord_append_dropWhile] at hclose
      simp only [Option.any_some, hword, Bool.true_or, if_true, hclose]
    | false =>
      have hclose := s.closeRegion_append hpassed front rest
      rw [← htext] at hclose
      have hsplits : Grammar.splitsRegionEnd token text =
          ((text.firstWord != [] && text.firstWord.isPrefixOf token.text) &&
            (Grammar.secondWord text != [] &&
              text.firstWord ++ Grammar.secondWord text == token.text.filter (!isBlank ·))) :=
        Bool.and_assoc ..
      simp only [Option.any_some, hword, Bool.false_or, Bool.false_eq_true, if_false, hsplits, hspells]
      cases text.firstWord != [] && text.firstWord.isPrefixOf token.text with
      | false => exact hother
      | true =>
        cases Grammar.secondWord text != [] &&
          text.firstWord ++ Grammar.secondWord text == token.text.filter (!isBlank ·) with
        | false => exact hother
        | true => exact congrArg some hclose

theorem readItem?_append (g : Grammar) (front text : Text) :
    s.readItem? g (front ++ text) front.bytes text.firstWord (front ++ text.firstWord).bytes =
      some (.ofReading s front (g.readItem text)) := by
  have hline : lineEnd (front ++ text) (front ++ text.firstWord).bytes =
      front.bytes + text.firstLine.bytes := by
    have happend := lineEnd_append (unbroken_firstWord text) front (text.dropWhile (!isBlank ·))
    rwa [firstWord_append_dropWhile, ← bytes_append] at happend
  unfold readItem? Grammar.readItem
  cases hcomment : g.startsLineComment text.firstWord with
  | true =>
    simp only [if_true, hline]
    rfl
  | false =>
    simp only [Bool.false_eq_true, if_false]
    cases hblock : g.blockAt? text.firstWord with
    | some pair =>
      have hprefix := (Option.filter_eq_some_iff.mp hblock).2
      exact s.closeBlock?_append
        ((List.isPrefixOf_iff_prefix.mp hprefix).trans (firstWord_isPrefix text)) front
    | none =>
      cases hopens : g.opensRegion text with
      | true =>
        rw [Grammar.opensRegion] at hopens
        simp only [hopens, if_true, hline]
        rfl
      | false =>
        have hopens' := hopens
        rw [Grammar.opensRegion] at hopens'
        simp only [hopens', Bool.false_eq_true, if_false]
        exact s.readRegionEnd?_append g front text

end Scanner

end Masthead.Comment
