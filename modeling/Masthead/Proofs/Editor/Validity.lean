import Masthead.Editor.Basic
import Masthead.Proofs.Header.Respelling
import Masthead.Proofs.Language.Recognition
import Masthead.Proofs.Task.Interleaving

/-!
# Which headers are valid

A header is validated with line feeds, and the verdict holds for every line ending it may be written
with. A header of comment lines and blank lines is read like any other text, so it ends with the first
blank line behind a comment. It is valid as long as nothing comes behind that line.
-/
namespace Masthead
open Text LineEnding Comment Header

/-- Behind the blank lines in front, no line but the last one is blank. -/
def Header.holdsTogether (lines : List Text) : Bool :=
  (lines.dropWhile isAllBlank).dropLast.all (!·.isAllBlank)

def Header.feedLines (lines : List Text) : Text := lines.flatMap (· ++ ['\n'])

/-- The line is a line comment, with blanks in front of it. -/
def Comment.IsCommentLine (token line : Text) : Prop :=
  token <+: line.trimStart ∧ ∀ c ∈ line, isLineBreak c = false

namespace Header

variable {line : Text} {lines blankLines comments behind : List Text}

@[simp] theorem feedLines_nil : feedLines [] = [] := rfl

@[simp] theorem feedLines_cons (line : Text) (lines : List Text) :
    feedLines (line :: lines) = line ++ '\n' :: feedLines lines := by simp [feedLines]

@[simp] theorem feedLines_append (lines more : List Text) :
    feedLines (lines ++ more) = feedLines lines ++ feedLines more := by simp [feedLines]

theorem feedLines_eq_nil_iff : feedLines lines = [] ↔ lines = [] := by cases lines <;> simp

theorem linesText_lf (hne : lines ≠ []) : linesText .lf lines = feedLines lines := by
  induction lines with
  | nil => exact absurd rfl hne
  | cons line lines ih =>
    by_cases hnil : lines = []
    · simp [hnil, LineEnding.text]
    · simp [linesText_cons _ _ hnil, ih hnil, LineEnding.text]

theorem isAllBlank_feedLines (h : ∀ line ∈ lines, line.isAllBlank) :
    (feedLines lines).isAllBlank := by
  induction lines with
  | nil => rfl
  | cons line lines ih =>
    simp [h line (by simp), isBlank, ih fun line hline => h line (List.mem_cons_of_mem _ hline)]

theorem exists_lineGroups (lines : List Text) : ∃ blankLines comments behind,
    lines = blankLines ++ comments ++ behind ∧ (∀ line ∈ blankLines, line.isAllBlank) ∧
      (∀ line ∈ comments, line.isAllBlank = false) ∧ (∀ line ∈ behind.head?, line.isAllBlank) ∧
      (comments = [] → behind = []) := by
  refine ⟨lines.takeWhile isAllBlank, (lines.dropWhile isAllBlank).takeWhile (!·.isAllBlank),
    (lines.dropWhile isAllBlank).dropWhile (!·.isAllBlank), ?_, ?_, ?_, ?_, ?_⟩
  · rw [List.append_assoc, List.takeWhile_append_dropWhile, List.takeWhile_append_dropWhile]
  · exact fun line hline => List.mem_takeWhile_imp hline
  · exact fun line hline => by simpa using List.mem_takeWhile_imp hline
  · intro line hline
    have := List.head?_dropWhile_not (!·.isAllBlank) (lines.dropWhile isAllBlank)
    rw [Option.mem_def.mp hline] at this
    simpa using this
  · intro hnil
    cases hcore : lines.dropWhile isAllBlank with
    | nil => rfl
    | cons line core =>
      have := List.head?_dropWhile_not isAllBlank lines
      rw [hcore] at this hnil
      simp [show line.isAllBlank = false from this] at hnil

theorem holdsTogether_append (hblank : ∀ line ∈ blankLines, line.isAllBlank)
    (hcomments : ∀ line ∈ comments, line.isAllBlank = false)
    (hbehind : ∀ line ∈ behind.head?, line.isAllBlank) (hne : comments ≠ []) :
    holdsTogether (blankLines ++ comments ++ behind) ↔ behind.tail = [] := by
  obtain ⟨first, comments, rfl⟩ := List.exists_cons_of_ne_nil hne
  have hdrop : (blankLines ++ (first :: comments) ++ behind).dropWhile isAllBlank =
      first :: comments ++ behind := by
    rw [List.append_assoc, List.dropWhile_append_of_pos (by simpa using hblank), List.cons_append,
      List.dropWhile_cons_of_neg (by simp [hcomments first])]
  have hall : (first :: comments).all (!·.isAllBlank) := by simpa using hcomments
  rw [holdsTogether, hdrop]
  cases behind with
  | nil =>
    have hinit : (first :: comments).dropLast.all (!·.isAllBlank) := by
      rw [List.all_eq_true] at hall ⊢
      exact fun line hline => hall line (List.mem_of_mem_dropLast hline)
    simpa using hinit
  | cons blank behind =>
    have hb : blank.isAllBlank := hbehind blank rfl
    rw [List.dropLast_append_cons, List.all_append, hall]
    cases behind <;> simp [hb]

end Header

namespace Comment

variable {g : Grammar} {token : Token} {p : Place} {lead : Text} {comments behind : List Text}

theorem Place.Awaits.commentLine {line rest : Text} (h : p.Awaits lead (line ++ '\n' :: rest))
    (hdepth : p.depth = 0) (htoken : token ∈ g.line) (hword : IsWord token.text)
    (hline : IsCommentLine token.text line) :
    ∃ piece, Step g p piece ⟨true, 0, '\n' :: rest⟩ := by
  obtain ⟨⟨more, hmore⟩, hunbroken⟩ := hline
  have hsplit : line = line.takeWhile isBlank ++ (token.text ++ more) := by
    rw [hmore, takeWhile_append_trimStart]
  have hindent : ∀ c ∈ line.takeWhile isBlank, isIndent c := by
    intro c hc
    have hblank := List.mem_takeWhile_imp hc
    have hbreak := hunbroken c ((List.takeWhile_prefix _).subset hc)
    simp [isIndent, hblank, hbreak]
  have hfills : FillsLine (token.text ++ more) ('\n' :: rest) := by
    refine ⟨fun c hc => hunbroken c ?_, by simp [isLineBreak]⟩
    rw [hsplit]
    exact List.mem_append_right _ hc
  rw [hsplit, List.append_assoc] at h
  exact ⟨_, h.step hindent (readItem_lineComment htoken hword.2 hfills)
    (by simp [hdepth, ItemKind.depthAfter?])⟩

theorem steps_commentLines (htoken : token ∈ g.line) (hword : IsWord token.text)
    (hcomments : ∀ line ∈ comments, IsCommentLine token.text line) (hne : comments ≠ [])
    (hdepth : p.depth = 0) {rest : Text} (h : p.Awaits lead (feedLines comments ++ rest)) :
    ∃ pieces, pieces ≠ [] ∧ Steps g p pieces ⟨true, 0, '\n' :: rest⟩ := by
  induction comments generalizing p lead with
  | nil => exact absurd rfl hne
  | cons line comments ih =>
    rw [feedLines_cons, List.append_assoc, List.cons_append] at h
    obtain ⟨piece, hstep⟩ := h.commentLine hdepth htoken hword (hcomments line (by simp))
    by_cases hlast : comments = []
    · subst hlast
      exact ⟨[piece], by simp, .cons hstep .nil⟩
    · have hnext := Place.Awaits.lineEnding .lf 0 (feedLines comments ++ rest)
      obtain ⟨pieces, -, hsteps⟩ :=
        ih (fun line hline => hcomments line (List.mem_cons_of_mem _ hline)) hlast rfl hnext
      exact ⟨piece :: pieces, by simp, .cons hstep hsteps⟩

theorem takeBlanks_blankLine {blank : Text} (hblank : blank.isAllBlank)
    (hunbroken : ∀ c ∈ blank, isLineBreak c = false) (rest : Text) :
    takeBlanks 1 (blank ++ '\n' :: rest) = (blank ++ ['\n'], rest, 0) := by
  induction blank with
  | nil => simp
  | cons c blank ih =>
    simp only [isAllBlank_cons, Bool.and_eq_true] at hblank
    rw [List.cons_append, takeBlanks_cons (hunbroken c (by simp)), if_pos hblank.1,
      ih hblank.2 fun d hd => hunbroken d (List.mem_cons_of_mem _ hd)]
    rfl

/-- The leading comment of comment lines and blank lines ends with the first blank line behind a
comment. -/
theorem leading_feedLines {blankLines : List Text} (htoken : token ∈ g.line)
    (hword : IsWord token.text) (hblank : ∀ line ∈ blankLines, line.isAllBlank)
    (hcomments : ∀ line ∈ comments, IsCommentLine token.text line) (hne : comments ≠ [])
    (hbehind : ∀ line ∈ behind.head?, line.isAllBlank) (hunbroken : Unbroken behind) :
    g.leading (feedLines (blankLines ++ comments ++ behind)) =
      .ok (feedLines (blankLines ++ comments ++ behind.take 1)) := by
  have hstart : (Place.start (feedLines (blankLines ++ comments ++ behind))).Awaits
      (feedLines blankLines) (feedLines comments ++ feedLines behind) :=
    ⟨by simp [Place.start], isAllBlank_feedLines hblank, by simp [Place.start, Place.watches]⟩
  obtain ⟨pieces, hpieces, hsteps⟩ := steps_commentLines htoken hword hcomments hne rfl hstart
  cases behind with
  | nil =>
    exact leading_of_steps hsteps hpieces rfl (.lineEnding .lf 0 [])
  | cons blank behind =>
    have hhalt : Halts g ⟨true, 0, '\n' :: feedLines (blank :: behind)⟩ ('\n' :: (blank ++ ['\n']))
        .blankLine := by
      refine ⟨rfl, feedLines behind, ?_⟩
      have hread := takeBlanks_blankLine (hbehind blank rfl) (hunbroken blank (by simp))
        (feedLines behind)
      simp [hread]
    rw [leading_of_scanned hsteps hpieces rfl hhalt (by simp)]
    have htext : feedLines blankLines ++ feedLines comments = piecesText pieces ++ ['\n'] := by
      have := hsteps.text
      rw [Place.start, feedLines_append, feedLines_append, List.append_cons] at this
      exact List.append_cancel_right this
    have hfound : feedLines (blankLines ++ comments ++ [blank]) =
        piecesText pieces ++ ['\n'] ++ (blank ++ ['\n']) := by
      rw [feedLines_append, feedLines_append, htext]
      simp
    rw [List.take_succ_cons, List.take_zero, hfound]
    simp

/-- Comment lines and blank lines are a complete comment as long as nothing comes behind the first
blank line that follows a comment. -/
theorem isComplete_feedLines {blankLines : List Text} (htoken : token ∈ g.line)
    (hword : IsWord token.text) (hblank : ∀ line ∈ blankLines, line.isAllBlank)
    (hcomments : ∀ line ∈ comments, IsCommentLine token.text line) (hne : comments ≠ [])
    (hbehind : ∀ line ∈ behind.head?, line.isAllBlank) (hunbroken : Unbroken behind) :
    g.isComplete (feedLines (blankLines ++ comments ++ behind)) ↔ behind.tail = [] := by
  rw [Grammar.isComplete, leading_feedLines htoken hword hblank hcomments hne hbehind hunbroken]
  cases behind with
  | nil => simp
  | cons blank behind =>
    have hmore : [] = feedLines behind ↔ behind = [] := eq_comm.trans feedLines_eq_nil_iff
    simp [hmore]

end Comment

namespace Header.Rule

variable {l : Language} {token : Text} {lines keywords : List Text} {r : Rule}

theorem of_ofLanguage {header : Option (List Text)} (h : ofLanguage l header keywords = .ok r) :
    r.grammar = l.grammar ∧ r.header = header := by
  cases hskip : l.skipPattern? with
  | error cause => simp [ofLanguage, hskip, bind, Except.bind] at h
  | ok skip =>
    simp only [ofLanguage, hskip, bind, Except.bind, Except.ok.injEq] at h
    exact ⟨h ▸ rfl, h ▸ rfl⟩

theorem isValid_iff_linesText (hg : r.grammar.ClosesInLine) (hunbroken : Unbroken lines)
    (hheader : r.header = some lines) (e : LineEnding) :
    r.isValid ↔ (linesText e lines).isAllBlank ∨ r.grammar.isComplete (linesText e lines) := by
  have hcr := hunbroken.cr_notMem_linesText_lf
  rw [hunbroken.linesText_eq_respell e, isAllBlank_respell hcr, isComplete_respell hg hcr]
  simp [isValid, headerText?, hheader]

/-- A header is complete in every line ending or in none, so a valid one is blank, or complete in
whichever ending it is written. -/
theorem isComplete_linesText (htokens : l.hasTokensInLine) (hunbroken : Unbroken lines) :
    (∀ e, l.grammar.isComplete (linesText e lines) = l.grammar.isComplete (linesText .lf lines)) ∧
      ∀ keywords r, ofLanguage l (some lines) keywords = .ok r → ∀ e,
        r.isValid ↔ (linesText e lines).isAllBlank ∨ l.grammar.isComplete (linesText e lines) := by
  have hg := l.closesInLine htokens
  refine ⟨fun e => ?_, fun keywords r hrule e => ?_⟩
  · rw [hunbroken.linesText_eq_respell e, isComplete_respell hg hunbroken.cr_notMem_linesText_lf]
  · obtain ⟨hgrammar, hheader⟩ := of_ofLanguage hrule
    rw [← hgrammar] at hg ⊢
    exact isValid_iff_linesText hg hunbroken hheader e

/-- In no line ending does a blank line inside a block comment end the header. -/
theorem isComplete_linesText_block :
    slashed.grammar.isComplete "/* a\r\r b */ // c\r /*\r*/\r\r".toList ∧
      slashed.grammar.isComplete "/* a\r\n\r\n b */ // c\r\n /*\r\n*/\r\n\r\n".toList := by
  have hunbroken : Unbroken ["/* a".toList, [], " b */ // c".toList, " /*".toList, "*/".toList, []] := by
    decide
  obtain ⟨hsame, hvalid⟩ := isComplete_linesText (l := slashed) rfl hunbroken
  have hlf : slashed.grammar.isComplete "/* a\n\n b */ // c\n /*\n*/\n\n".toList := by cbv
  have hvalidated := (hvalid [] _ rfl .lf).mpr (.inr hlf)
  exact ⟨(hsame .cr).trans hlf, ((hvalid [] _ rfl .crlf).mp hvalidated).resolve_left (by decide)⟩

/-- A blank header is valid, and there is no comment in it. -/
theorem not_isComplete_of_isValid : ¬ ∀ (l : Language) (lines keywords : List Text) (r : Rule),
    l.hasTokensInLine → Unbroken lines → ofLanguage l (some lines) keywords = .ok r →
    (∀ e, l.grammar.isComplete (linesText e lines) = l.grammar.isComplete (linesText .lf lines)) ∧
      (r.isValid → ∀ e, l.grammar.isComplete (linesText e lines)) := by
  intro h
  have hcomplete := (h slashed [[]] [] _ rfl (by decide) rfl).2 (by cbv) .lf
  have hblank : slashed.grammar.isComplete "\n".toList = false := by cbv
  exact Bool.false_ne_true (hblank.symm.trans hcomplete)

theorem isValid_of_blankLines (hheader : r.header = some lines)
    (hblank : ∀ line ∈ lines, line.isAllBlank) : r.isValid := by
  have htext : (linesText .lf lines).isAllBlank := by
    by_cases hne : lines = []
    · simp [hne]
    · rw [linesText_lf hne, isAllBlank_feedLines hblank]
  simp [isValid, headerText?, hheader, htext]

theorem isValid_iff_isComplete (hheader : r.header = some lines) {line : Text} (hline : line ∈ lines)
    (hblank : line.isAllBlank = false) : r.isValid ↔ r.grammar.isComplete (feedLines lines) := by
  have htext : (feedLines lines).isAllBlank = false := by
    obtain ⟨above, below, rfl⟩ := List.append_of_mem hline
    simp [hblank]
  simp [isValid, headerText?, hheader, linesText_lf (List.ne_nil_of_mem hline), htext]

theorem isValid_iff_holdsTogether (hline : l.lineComment = some token) (hword : IsWord token)
    (hunbroken : Unbroken lines)
    (hlines : ∀ line ∈ lines, line.isAllBlank ∨ token <+: line.trimStart)
    (hrule : ofLanguage l (some lines) keywords = .ok r) : r.isValid ↔ holdsTogether lines := by
  obtain ⟨hgrammar, hheader⟩ := of_ofLanguage hrule
  have htoken : (⟨token, hword.1⟩ : Token) ∈ r.grammar.line := by
    rw [hgrammar]
    exact Language.mem_bind_ofText? hline hword.1
  obtain ⟨blankLines, comments, behind, rfl, hblank, hcomments, hbehind, hnil⟩ :=
    exists_lineGroups lines
  by_cases hne : comments = []
  · obtain rfl := hnil hne
    subst hne
    rw [List.append_nil, List.append_nil] at hheader ⊢
    have hnone : blankLines.dropWhile isAllBlank = [] := List.dropWhile_eq_nil_iff.mpr hblank
    simp [isValid_of_blankLines hheader hblank, holdsTogether, hnone]
  · obtain ⟨first, hfirst⟩ := List.exists_mem_of_ne_nil comments hne
    have hcomment : ∀ line ∈ comments, IsCommentLine token line := fun line hline =>
      ⟨(hlines line (by simp [hline])).resolve_left (by simp [hcomments line hline]),
        hunbroken line (by simp [hline])⟩
    rw [isValid_iff_isComplete hheader (by simp [hfirst]) (hcomments first hfirst),
      isComplete_feedLines htoken hword hblank hcomment hne hbehind
        fun line hline => hunbroken line (by simp [hline]),
      holdsTogether_append hblank hcomments hbehind hne]

end Header.Rule

namespace Editor

variable {job : Job} {d : Header.Document}

/-- Whether the header is refused is decided before the text is looked at. -/
theorem yields_apply_nonCommentText (job : Job) (d : Header.Document) :
    (apply job d).Yields fun result =>
      (∃ failure, result = .error failure ∧ failure.kind = .nonCommentText) ↔
        job.ignoreNonCommentText = false ∧ d.rule.isValid = false := by
  unfold apply
  split
  · rename_i hrefused
    have hrefused : job.ignoreNonCommentText = false ∧ d.rule.isValid = false := by
      simpa using hrefused
    exact iff_of_true ⟨_, rfl, rfl⟩ hrefused
  · rename_i haccepted
    have haccepted : ¬ (job.ignoreNonCommentText = false ∧ d.rule.isValid = false) := by
      simpa using haccepted
    cases job.source
    all_goals
      refine (Task.Yields.of_forall (fun _ => trivial) _).bind fun new _ => ?_
      cases new with
      | error cause => exact iff_of_false (by cases cause <;> simp [Failure.ofDocumentError]) haccepted
      | ok new => exact iff_of_false (by simp) haccepted

/-- A header of comment lines and blank lines is refused exactly if something comes behind the first
blank line that follows a comment. -/
theorem commentLines_refused_iff {l : Language} {token : Text} {lines keywords : List Text}
    {r : Header.Rule} (hline : l.lineComment = some token) (hword : IsWord token)
    (hunbroken : Unbroken lines)
    (hlines : ∀ line ∈ lines, line.isAllBlank ∨ token <+: line.trimStart)
    (hrule : Header.Rule.ofLanguage l (some lines) keywords = .ok r) :
    (r.isValid ↔ holdsTogether lines) ∧
      ∀ job path source, (apply job ⟨path, source, r⟩).Yields fun result =>
        (∃ failure, result = .error failure ∧ failure.kind = .nonCommentText) ↔
          job.ignoreNonCommentText = false ∧ holdsTogether lines = false := by
  have hvalid := Header.Rule.isValid_iff_holdsTogether hline hword hunbroken hlines hrule
  refine ⟨hvalid, fun job path source => ?_⟩
  rw [← Bool.eq_iff_iff.mpr hvalid]
  exact yields_apply_nonCommentText job ⟨path, source, r⟩

def plainJob : Job where
  path := Path.ofText "a.go".toList
  source := .onDisk
  headers := none
  properties := []
  ignoreNonCommentText := false

/-- The blank lines in front and the blank line at the end belong to the header. -/
theorem commentLines_refused_indented :
    (Header.slashedRule (some [[], "  // a".toList, "//b".toList, " ".toList]) []).isValid ∧
      ((apply plainJob ⟨plainJob.path, .onDisk,
        Header.slashedRule (some ["// a".toList, [], []]) []⟩).Yields fun result =>
          ∃ failure, result = .error failure ∧ failure.kind = .nonCommentText) := by
  have hword : IsWord "//".toList := by decide
  have hindented : ∀ line ∈ ([[], "  // a".toList, "//b".toList, " ".toList] : List Text),
      line.isAllBlank ∨ "//".toList <+: line.trimStart := by decide
  have hblank : ∀ line ∈ (["// a".toList, [], []] : List Text),
      line.isAllBlank ∨ "//".toList <+: line.trimStart := by decide
  constructor
  · have hiff := commentLines_refused_iff (l := Header.slashed) (r := Header.slashedRule _ [])
      rfl hword (by decide) hindented rfl
    exact hiff.1.mpr (by decide)
  · have hiff := commentLines_refused_iff (l := Header.slashed) (r := Header.slashedRule _ [])
      rfl hword (by decide) hblank rfl
    have hyields := hiff.2 plainJob plainJob.path .onDisk
    exact hyields.mono fun result h => h.mpr ⟨rfl, by decide⟩

/-- A comment behind a blank line is not read as a part of the header. -/
theorem not_commentLines_valid : ¬ ∀ (l : Language) (token : Text) (lines : List Text)
    (r : Header.Rule), (∀ word, some word ∈ [l.lineComment, l.blockStart, l.blockEnd, l.regionStart,
      l.regionEnd] → IsWord word) → l.lineComment = some token → Unbroken lines →
    (∃ line ∈ lines, line.isAllBlank = false) →
    (∀ line ∈ lines, line.isAllBlank ∨ token <+: line.dropWhile fun c => c == ' ' || c == '\t') →
    Header.Rule.ofLanguage l (some lines) [] = .ok r → r.isValid := by
  intro h
  have hvalid := h Header.slashed "//".toList ["// a".toList, [], "// b".toList] _ ?_ rfl (by decide)
    (by decide) (by decide) rfl
  · have hinvalid : (Header.slashedRule (some ["// a".toList, [], "// b".toList]) []).isValid =
        false := by cbv
    exact Bool.false_ne_true (hinvalid.symm.trans hvalid)
  · intro word hword
    simp only [Header.slashed, Language.withLineComment, Language.withBlockComment,
      Language.ofExtensions, List.mem_cons, Option.some.injEq, reduceCtorEq, List.not_mem_nil,
      or_false] at hword
    obtain rfl | rfl | rfl := hword <;> decide

end Editor
end Masthead
