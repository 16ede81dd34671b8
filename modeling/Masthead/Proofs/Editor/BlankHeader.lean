import Masthead.Proofs.Editor.Outcome
import Masthead.Proofs.Editor.Validity
import Masthead.Proofs.Language.Extension

/-!
# Headers that are not blank

A header is looked up with its tokens in place, and one of blank lines is refused then. Its tokens
are replaced afterwards. What is built in is not blank, except for a blank user name, so only that
and the properties that the caller gives can turn a header into blank lines.
-/
namespace Masthead
open Text

namespace Text

variable {token value t : Text}

theorem isAllBlank_eq_false_iff : t.isAllBlank = false ↔ ∃ c ∈ t, isBlank c = false := by
  simp [isAllBlank]

theorem isAllBlank_replaceOccurrences (hn : token ≠ [])
    (h : token.isAllBlank ∨ value.isAllBlank = false) (ht : t.isAllBlank = false) :
    (replaceOccurrences token value hn t).isAllBlank = false := by
  fun_induction replaceOccurrences token value hn t with
  | case1 => exact ht
  | case2 t before rest hsplit ih =>
    rw [eq_of_splitAtFirst?_eq_some hsplit] at ht
    rcases h with htoken | hvalue
    · rcases Bool.eq_false_or_eq_true before.isAllBlank with hbefore | hbefore
      · have hrest : rest.isAllBlank = false := by simpa [htoken, hbefore] using ht
        simp [ih hrest]
      · simp [hbefore]
    · simp [hvalue]

theorem isAllBlank_replace (h : token.isAllBlank ∨ value.isAllBlank = false)
    (ht : t.isAllBlank = false) : (replace token value t).isAllBlank = false := by
  unfold replace
  split
  · obtain ⟨c, hc, hblank⟩ := isAllBlank_eq_false_iff.mp ht
    have hmem : c ∈ t.flatMap fun c => c :: value :=
      List.mem_flatMap.mpr ⟨c, hc, List.mem_cons_self⟩
    exact isAllBlank_eq_false_iff.mpr ⟨c, List.mem_append_right _ hmem, hblank⟩
  · exact isAllBlank_replaceOccurrences _ h ht

theorem isBlank_of_isDigit {c : Char} (h : c.isDigit) : isBlank c = false := by
  have hcode : 48 ≤ c.toNat ∧ c.toNat ≤ 57 := by
    simpa [Char.isDigit, UInt32.le_iff_toNat_le] using h
  rw [← Bool.not_eq_true, isBlank_iff_mem]
  simp [blankCodes]
  omega

theorem isAllBlank_ofNat (n : Nat) : (ofNat n).isAllBlank = false := by
  obtain ⟨c, hc⟩ := List.exists_mem_of_ne_nil _ (Nat.toDigits_ne_nil (n := n) (b := 10))
  exact isAllBlank_eq_false_iff.mpr
    ⟨c, hc, isBlank_of_isDigit (Nat.isDigit_of_mem_toDigits (by decide) (by decide) hc)⟩

theorem mem_decodeFrom_of_mem_splitAll {p : UInt8 → Bool} {bytes : List UInt8} {c : Char}
    (hp : ∀ b, p b → b.toNat < 0x80)
    {opening : Option Opening} (h : ∀ o ∈ opening, o.Sound) {first : List UInt8}
    {others : List (List UInt8)} (hsplit : splitAll p bytes = first :: others) :
    (c ∈ decodeFrom opening first → c ∈ decodeFrom opening bytes) ∧
      ∀ run ∈ others, c ∈ decode run → c ∈ decodeFrom opening bytes := by
  induction bytes generalizing opening first others with
  | nil =>
    cases hsplit
    simp
  | cons b bytes ih =>
    rw [decodeFrom_cons]
    rw [splitAll] at hsplit
    split_ifs at hsplit with hb
    · obtain ⟨rfl, rfl⟩ := List.cons.inj hsplit
      rw [decodeNext_of_lt h (hp b hb)]
      dsimp only
      constructor
      · intro hc
        cases opening <;> simp_all [decodeFrom]
      · intro run hrun hc
        obtain ⟨first, others, hbehind⟩ := List.exists_cons_of_ne_nil (splitAll_ne_nil p bytes)
        rw [hbehind] at hrun
        obtain ⟨hfirst, hothers⟩ := @ih none (by simp) first others hbehind
        refine List.mem_append_right _ ?_
        rcases List.mem_cons.mp hrun with rfl | hrun
        · exact hfirst hc
        · exact hothers run hrun hc
    · have hsound := (decodeNext_ascii h b.toNat).2
      obtain ⟨run, runs, hbehind⟩ := List.exists_cons_of_ne_nil (splitAll_ne_nil p bytes)
      obtain ⟨hfirst, hothers⟩ := ih hsound hbehind
      rw [hbehind] at hsplit
      obtain ⟨rfl, rfl⟩ := List.cons.inj hsplit
      rw [decodeFrom_cons]
      constructor
      · exact fun hc => List.mem_append.mpr ((List.mem_append.mp hc).imp_right hfirst)
      · exact fun run hrun hc => List.mem_append_right _ (hothers run hrun hc)

end Text

theorem Path.toNat_lt_of_slash {b : UInt8} (h : b == slash) : b.toNat < 0x80 := by
  rw [beq_iff_eq.mp h]
  decide

theorem Path.isAllBlank_shown {path : Path} (h : path.fileName.isAllBlank = false) :
    path.shown.isAllBlank = false := by
  cases hname : path.fileName? with
  | none =>
    rw [fileName, hname] at h
    cases h
  | some name =>
    obtain ⟨-, -, hpiece, -⟩ := exists_names_of_fileName? hname
    obtain ⟨c, hc, hblank⟩ := isAllBlank_eq_false_iff.mp h
    rw [fileName, hname, Option.getD_some] at hc
    refine isAllBlank_eq_false_iff.mpr ⟨c, ?_, hblank⟩
    obtain ⟨first, others, hsplit⟩ :=
      List.exists_cons_of_ne_nil (splitAll_ne_nil (fun b => b == slash) path)
    have hmem := (List.mem_filter.mp hpiece).1
    rw [hsplit] at hmem
    have hclosed : ∀ o ∈ (none : Option Opening), o.Sound := by simp
    obtain ⟨hfirst, hothers⟩ :=
      mem_decodeFrom_of_mem_splitAll (fun b => toNat_lt_of_slash) hclosed hsplit
    rcases List.mem_cons.mp hmem with rfl | hmem
    · exact hfirst hc
    · exact hothers name hmem hc

theorem Language.isAllBlank_of_covers {l : Language} {fileName : Text}
    (h : l.normalized.covers fileName) : fileName.isAllBlank = false := by
  obtain ⟨extension, hmem, hends⟩ := List.any_eq_true.mp h
  obtain ⟨given, -, rfl⟩ := List.mem_map.mp hmem
  simp only [Bool.and_eq_true, bne_iff_ne, endsWithIgnoringCase,
    lower_of_isLower (isNormal_normalizeExtension given).lower, List.isSuffixOf_iff_suffix] at hends
  have hdot := hends.2.subset (dot_mem_normalizeExtension hends.1)
  rw [← isAllBlank_lower]
  exact isAllBlank_eq_false_iff.mpr ⟨'.', hdot, by decide⟩

namespace Header

theorem isAllBlank_linesText (e : LineEnding) (lines : List Text) :
    (linesText e lines).isAllBlank ↔ ∀ line ∈ lines, line.isAllBlank := by
  induction lines with
  | nil => simp
  | cons line lines ih =>
    cases lines with
    | nil => simp
    | cons next lines => rw [linesText_cons e line (by simp)]; simp [ih]

namespace Property

/-- Blanks are put in the place of a token that is not blank. -/
def Erases (p : Property) : Prop := p.token.isAllBlank = false ∧ p.value.isAllBlank

instance (p : Property) : Decidable p.Erases := inferInstanceAs (Decidable (_ ∧ _))

theorem not_erases_of_value {p : Property} (h : p.value.isAllBlank = false) : ¬ p.Erases :=
  fun herases => Bool.false_ne_true (h.symm.trans herases.2)

theorem isAllBlank_expandLine {properties : List Property} (h : ∀ p ∈ properties, ¬ p.Erases)
    {line : Text} (hline : line.isAllBlank = false) :
    (expandLine properties line).isAllBlank = false := by
  induction properties generalizing line with
  | nil => exact hline
  | cons p properties ih =>
    have hp : p.token.isAllBlank ∨ p.value.isAllBlank = false := by
      have := h p List.mem_cons_self
      simp only [Erases, not_and, Bool.not_eq_true] at this
      cases htoken : p.token.isAllBlank with
      | true => exact .inl rfl
      | false => exact .inr (this htoken)
    exact ih (fun p hmem => h p (List.mem_cons_of_mem _ hmem)) (isAllBlank_replace hp hline)

theorem isAllBlank_twoDigits (n : Nat) : (CivilTime.twoDigits n).isAllBlank = false := by
  unfold CivilTime.twoDigits
  split <;> simp [isAllBlank_ofNat]

theorem isAllBlank_yearText (time : CivilTime) : time.yearText.isAllBlank = false := by
  unfold CivilTime.yearText
  split <;> simp [isAllBlank_ofNat]

theorem not_erases_dated (name : String) (m : Moment) : ∀ p ∈ dated name m, ¬ p.Erases := by
  intro p hp
  refine not_erases_of_value ?_
  simp only [dated, List.mem_cons, List.not_mem_nil, or_false] at hp
  rcases hp with rfl | rfl | rfl | rfl
  · exact isAllBlank_yearText _
  · exact isAllBlank_twoDigits _
  · exact isAllBlank_twoDigits _
  · simp [CivilTime.clockText, isAllBlank_twoDigits]

theorem not_erases_builtIn {s : Surroundings} {path : Path} {born : Option Moment}
    (hname : path.fileName.isAllBlank = false) (huser : ∀ user ∈ s.user, user.isAllBlank = false) :
    ∀ p ∈ builtIn s path born, ¬ p.Erases := by
  intro p hp
  simp only [builtIn, List.mem_append] at hp
  rcases hp with (((hp | hp) | hp) | hp)
  · simp only [List.mem_cons, List.not_mem_nil, or_false] at hp
    rcases hp with rfl | rfl
    · exact not_erases_of_value (Path.isAllBlank_shown hname)
    · exact not_erases_of_value hname
  · exact not_erases_dated _ _ p hp
  · cases born with
    | none => simp at hp
    | some m => exact not_erases_dated _ m p hp
  · cases hs : s.user with
    | none => simp [hs] at hp
    | some user =>
      obtain rfl : p = ⟨"%UserName%".toList, user⟩ := by simpa [hs] using hp
      exact not_erases_of_value (huser user hs)

end Property
end Header

namespace Editor
open Header

variable {e : Editor} {s : Surroundings} {job : Job} {fs : FileSystem} {definitions : Definitions}
  {language : Language} {key : Text} {d : Document}

/-- A header is looked for in the job's definitions: the path names no definition file, and there is
a valid language for it. -/
structure Recognizes (e : Editor) (job : Job) (language : Language) : Prop where
  notDefinition : isDefinitionFile job.path = false
  found : e.languageFor? job.path.fileName = some language
  valid : language.validate = .ok ()

theorem Recognizes.resolve_eq (h : e.Recognizes job language) :
    e.resolve job = (headerFor job job.path.fileName).map fun header => (language, header) := by
  simp only [resolve, h.notDefinition, h.found, h.valid, Bool.false_eq_true, if_false,
    Except.mapError, bind, Except.bind]
  cases headerFor job job.path.fileName <;> rfl

theorem recognizes_or (e : Editor) (job : Job) :
    (∃ language, e.Recognizes job language) ∨
      (∀ language, ¬ e.Recognizes job language) ∧
        ∃ cause, e.resolve job = .error cause ∧ ∀ key, cause ≠ .emptyHeader key := by
  by_cases hfile : isDefinitionFile job.path
  · refine .inr ⟨fun _ h => ?_, .definitionFile, by simp [resolve, hfile], by simp⟩
    exact Bool.false_ne_true (h.notDefinition.symm.trans hfile)
  · cases hfound : e.languageFor? job.path.fileName with
    | none =>
      refine .inr ⟨fun _ h => by simpa [hfound] using h.found,
        .languageNotFound (shownExtension job.path.fileName), ?_, by simp⟩
      simp [resolve, hfile, hfound]
    | some language =>
      cases hvalid : language.validate with
      | error cause =>
        refine .inr ⟨fun l h => ?_, .invalidLanguage cause, ?_, by simp⟩
        · obtain rfl : language = l := Option.some.inj (hfound.symm.trans h.found)
          simpa [hvalid] using h.valid
        · simp [resolve, hfile, hfound, hvalid, bind, Except.bind, Except.mapError]
      | ok =>
        exact .inl ⟨language, by simpa using hfile, hfound, hvalid⟩

section Headers

variable (hheaders : job.headers = some definitions)
include hheaders

theorem headerFor_eq_ok_iff {fileName : Text} {header : Option (List Text)} :
    headerFor job fileName = .ok header ↔ ∃ key lines,
      definitions.lookup? fileName = some (key, lines) ∧ (∃ line ∈ lines, line.isAllBlank = false) ∧
        header = some lines := by
  simp only [headerFor, hheaders]
  cases definitions.lookup? fileName with
  | none => simp
  | some found =>
    obtain ⟨key, lines⟩ := found
    dsimp only
    cases hblank : lines.all isAllBlank with
    | true =>
      refine iff_of_false (by simp) ?_
      rintro ⟨_, _, ⟨⟩, ⟨line, hline, hnot⟩, -⟩
      exact Bool.false_ne_true (hnot.symm.trans (List.all_eq_true.mp hblank line hline))
    | false =>
      obtain ⟨line, hline, hnot⟩ := List.all_eq_false.mp hblank
      rw [if_neg Bool.false_ne_true]
      constructor
      · rintro ⟨⟩
        exact ⟨key, lines, rfl, ⟨line, hline, by simpa using hnot⟩, rfl⟩
      · rintro ⟨_, _, ⟨⟩, -, rfl⟩
        rfl

theorem headerFor_eq_emptyHeader_iff {fileName : Text} :
    headerFor job fileName = .error (.emptyHeader key) ↔ ∃ lines,
      definitions.lookup? fileName = some (key, lines) ∧ ∀ line ∈ lines, line.isAllBlank := by
  simp only [headerFor, hheaders]
  cases definitions.lookup? fileName with
  | none => simp
  | some found =>
    obtain ⟨key', lines⟩ := found
    dsimp only
    cases hblank : lines.all isAllBlank with
    | true =>
      have hlines := List.all_eq_true.mp hblank
      rw [if_pos rfl]
      constructor
      · rintro ⟨⟩
        exact ⟨lines, rfl, hlines⟩
      · rintro ⟨_, ⟨⟩, -⟩
        rfl
    | false =>
      refine iff_of_false (by simp) ?_
      rintro ⟨_, ⟨⟩, hlines⟩
      exact Bool.false_ne_true (hblank.symm.trans (List.all_eq_true.mpr hlines))

theorem resolve_eq_emptyHeader_iff :
    e.resolve job = .error (.emptyHeader key) ↔ (∃ language, e.Recognizes job language) ∧ ∃ lines,
      definitions.lookup? job.path.fileName = some (key, lines) ∧
        ∀ line ∈ lines, line.isAllBlank := by
  rw [← headerFor_eq_emptyHeader_iff hheaders]
  rcases recognizes_or e job with ⟨language, hlanguage⟩ | ⟨hnone, cause, hcause, hother⟩
  · rw [hlanguage.resolve_eq, and_iff_right ⟨language, hlanguage⟩]
    cases headerFor job job.path.fileName <;> simp [Except.map]
  · rw [hcause, Except.error.injEq]
    exact iff_of_false (hother key) fun ⟨⟨language, h⟩, _⟩ => hnone language h

theorem of_resolve_eq_ok {header : Option (List Text)}
    (h : e.resolve job = .ok (language, header)) :
    e.Recognizes job language ∧ ∃ key lines,
      definitions.lookup? job.path.fileName = some (key, lines) ∧
        (∃ line ∈ lines, line.isAllBlank = false) ∧ header = some lines := by
  rw [← headerFor_eq_ok_iff hheaders]
  rcases recognizes_or e job with ⟨language', hlanguage⟩ | ⟨-, cause, hcause, -⟩
  · rw [hlanguage.resolve_eq] at h
    cases hheader : headerFor job job.path.fileName with
    | error cause => simp [hheader, Except.map] at h
    | ok header' =>
      simp only [hheader, Except.map, Except.ok.injEq, Prod.mk.injEq] at h
      obtain ⟨rfl, rfl⟩ := h
      exact ⟨hlanguage, rfl⟩
  · simp [hcause] at h

end Headers

/-- A line of the job's header in which the tokens are replaced, for a file that was created at
`born`. -/
def expanded (s : Surroundings) (job : Job) (born : Option Moment) : Text → Text :=
  Property.expandLine (job.properties ++ Property.builtIn s job.path born)

theorem of_ruleFor_eq_ok {born : Option Moment} {rule : Rule}
    (h : e.ruleFor s job born = .ok rule) :
    ∃ language header, e.resolve job = .ok (language, header) ∧
      rule.header = header.map (·.map (expanded s job born)) := by
  unfold ruleFor at h
  split at h
  · cases h
  · rename_i language header hresolve
    refine ⟨language, header, hresolve, ?_⟩
    cases hrule :
        Rule.ofLanguage language (header.map (·.map (expanded s job born))) e.keywords with
    | error cause =>
      rw [expanded] at hrule
      simp [hrule, Except.mapError] at h
    | ok rule' =>
      obtain ⟨-, hheader⟩ := Rule.of_ofLanguage hrule
      rw [expanded] at hrule
      simp only [hrule, Except.mapError, Except.ok.injEq] at h
      exact h ▸ hheader

theorem ruleFor_eq_emptyHeader_iff {born : Option Moment} :
    e.ruleFor s job born = .error (.emptyHeader key) ↔
      e.resolve job = .error (.emptyHeader key) := by
  unfold ruleFor
  split
  · rename_i cause hresolve
    simp [hresolve]
  · rename_i language header hresolve
    rw [hresolve]
    refine iff_of_false ?_ (by simp)
    dsimp only
    cases Rule.ofLanguage language _ e.keywords <;> simp [Except.mapError]

theorem run_isMissing_eq (job : Job) (fs : FileSystem) :
    job.isMissing.run fs = ((job.isMissing.run fs).1, fs) := by
  cases hsource : job.source with
  | held content =>
    unfold Job.isMissing
    rw [hsource]
    rfl
  | onDisk => rw [run_isMissing hsource]

theorem run_document_of_isMissing (h : (job.isMissing.run fs).1 = true) :
    ((e.document s job).run fs).1 = .error ⟨job.path, .fileNotFound⟩ := by
  rw [document_eq, Task.run_bind, h]
  rfl

theorem Recognizes.isAllBlank_fileName {languages : List Language} {keywords : List Text} {n : Nat}
    (h : ((ofLanguages languages keywords).withParallelism n).Recognizes job language) :
    job.path.fileName.isAllBlank = false := by
  have hfound := h.found
  unfold languageFor? at hfound
  split at hfound
  · cases hfound
  · obtain ⟨l, -, rfl⟩ := List.mem_map.mp (List.mem_of_find?_eq_some hfound)
    have hcovers := List.find?_some hfound
    exact Language.isAllBlank_of_covers hcovers

/-- The header of a rule that was made for a file: lines that are not all blank, with their tokens
replaced. -/
structure ExpandedHeader (s : Surroundings) (job : Job) (born : Option Moment) (lines : List Text)
    (rule : Rule) : Prop where
  given : ∃ line ∈ lines, line.isAllBlank = false
  header : rule.header = some (lines.map (expanded s job born))
  blank_iff : ∀ ending, ∀ header ∈ rule.headerText? ending,
    header.isAllBlank ↔ ∀ line ∈ lines, (expanded s job born line).isAllBlank
  /-- It is not blank unless a property of the caller or the user's name erases something. -/
  notBlank : (∀ p ∈ job.properties, ¬ p.Erases) → (∀ user ∈ s.user, user.isAllBlank = false) →
    ∀ ending, ∀ header ∈ rule.headerText? ending, header.isAllBlank = false

theorem expandedHeader {born : Option Moment} {lines : List Text} {rule : Rule}
    (hname : job.path.fileName.isAllBlank = false)
    (hgiven : ∃ line ∈ lines, line.isAllBlank = false)
    (hheader : rule.header = some (lines.map (expanded s job born))) :
    ExpandedHeader s job born lines rule := by
  have hblank : ∀ ending, ∀ header ∈ rule.headerText? ending,
      header.isAllBlank ↔ ∀ line ∈ lines, (expanded s job born line).isAllBlank := by
    intro ending header htext
    rw [Rule.headerText?_of_header hheader, Option.mem_some] at htext
    subst htext
    rw [isAllBlank_linesText, List.forall_mem_map]
  refine ⟨hgiven, hheader, hblank, fun hproperties huser ending header htext => ?_⟩
  obtain ⟨line, hline, hnot⟩ := hgiven
  have hall : ∀ p ∈ job.properties ++ Property.builtIn s job.path born, ¬ p.Erases := by
    intro p hp
    rcases List.mem_append.mp hp with hp | hp
    · exact hproperties p hp
    · exact Property.not_erases_builtIn hname huser p hp
  rw [← Bool.not_eq_true, hblank ending header htext]
  intro hlines
  exact Bool.false_ne_true
    ((Property.isAllBlank_expandLine hall hnot).symm.trans (hlines line hline))

/-- A document has the header that the definitions give its file, which is not blank before its
tokens are replaced. If that is blank, it is refused as empty. -/
theorem document_header (languages : List Language) (keywords : List Text) (n : Nat)
    (s : Surroundings) (fs : FileSystem) (hheaders : job.headers = some definitions) :
    (∀ d, ((((ofLanguages languages keywords).withParallelism n).document s job).run fs).1 = .ok d →
      ∃ key lines, definitions.lookup? job.path.fileName = some (key, lines) ∧
        ExpandedHeader s job (fs.birthTime? job.path) lines d.rule) ∧
    ∀ key, ((((ofLanguages languages keywords).withParallelism n).document s job).run fs).1 =
        .error ⟨job.path, .emptyHeader key⟩ ↔
      (job.isMissing.run fs).1 = false ∧
        (∃ language, ((ofLanguages languages keywords).withParallelism n).Recognizes job language) ∧
        ∃ lines, definitions.lookup? job.path.fileName = some (key, lines) ∧
          ∀ line ∈ lines, line.isAllBlank := by
  cases hmissing : (job.isMissing.run fs).1 with
  | true =>
    rw [run_document_of_isMissing hmissing]
    simp
  | false =>
    have hpresent := run_isMissing_eq job fs
    rw [hmissing] at hpresent
    rw [run_document hpresent]
    constructor
    · intro d hd
      cases hrule : ((ofLanguages languages keywords).withParallelism n).ruleFor s job
          (fs.birthTime? job.path) with
      | error cause => simp [hrule] at hd
      | ok rule =>
        simp only [hrule, Except.ok.injEq] at hd
        subst hd
        obtain ⟨language, header, hresolve, hheader⟩ := of_ruleFor_eq_ok hrule
        obtain ⟨hlanguage, key, lines, hlookup, hgiven, rfl⟩ := of_resolve_eq_ok hheaders hresolve
        exact ⟨key, lines, hlookup, expandedHeader hlanguage.isAllBlank_fileName hgiven hheader⟩
    · intro key
      rw [and_iff_right rfl, ← resolve_eq_emptyHeader_iff hheaders,
        ← ruleFor_eq_emptyHeader_iff (s := s)]
      cases ((ofLanguages languages keywords).withParallelism n).ruleFor s job
        (fs.birthTime? job.path) <;> simp

section Token

def tokenPath : Path := Path.ofText "a.go".toList

/-- The text of a file whose header is a token that stands for `value`. -/
def tokenJob (value : Text) : Job where
  path := tokenPath
  source := .held "// Old\ncode\n".toList
  headers := some ⟨[(".go".toList, ["%X%".toList])]⟩
  properties := [⟨"%X%".toList, value⟩]
  ignoreNonCommentText := false

def tokenEditor : Editor := (ofLanguages [slashed] []).withParallelism 1

def emptyFileSystem : FileSystem where
  entries := []
  workingDirectory := []

/-- The value of the token is not blank, and neither is the header. -/
theorem document_header_token :
    (tokenJob "// H".toList).headers = some ⟨[(".go".toList, ["%X%".toList])]⟩ ∧
      ((tokenEditor.document ⟨⟨0⟩, none⟩ (tokenJob "// H".toList)).run emptyFileSystem).1 =
        .ok ⟨tokenPath, .held "// Old\ncode\n".toList, slashedRule (some ["// H".toList]) []⟩ ∧
      ∃ key lines, Definitions.lookup? ⟨[(".go".toList, ["%X%".toList])]⟩ tokenPath.fileName =
          some (key, lines) ∧
        ExpandedHeader ⟨⟨0⟩, none⟩ (tokenJob "// H".toList) none lines
          (slashedRule (some ["// H".toList]) []) ∧
        ∀ ending, ∀ header ∈ (slashedRule (some ["// H".toList]) []).headerText? ending,
          header.isAllBlank = false := by
  have hrun : ((tokenEditor.document ⟨⟨0⟩, none⟩ (tokenJob "// H".toList)).run
      emptyFileSystem).1 = .ok ⟨tokenPath, .held "// Old\ncode\n".toList,
        slashedRule (some ["// H".toList]) []⟩ := by
    decide +kernel
  obtain ⟨key, lines, hlookup, hheader⟩ :=
    (document_header [slashed] [] 1 ⟨⟨0⟩, none⟩ emptyFileSystem rfl).1 _ hrun
  exact ⟨rfl, hrun, key, lines, hlookup, hheader, hheader.notBlank (by decide) (by simp)⟩

/-- A token is not blank, but the header made of it is if it stands for nothing. -/
theorem not_header_notBlank : ¬ ∀ (languages : List Language) (keywords : List Text) (n : Nat)
    (s : Surroundings) (fs : FileSystem) (job : Job) (definitions : Definitions) (d : Document),
    job.headers = some definitions →
    ((((ofLanguages languages keywords).withParallelism n).document s job).run fs).1 = .ok d →
    ∀ header ∈ d.rule.headerText? .lf, header.isAllBlank = false := by
  intro h
  have hrun : ((tokenEditor.document ⟨⟨0⟩, none⟩ (tokenJob [])).run emptyFileSystem).1 =
      .ok ⟨tokenPath, .held "// Old\ncode\n".toList, slashedRule (some [[]]) []⟩ := by
    decide +kernel
  have hheader := h [slashed] [] 1 ⟨⟨0⟩, none⟩ emptyFileSystem (tokenJob []) _ _ rfl hrun
    "\n".toList rfl
  exact Bool.false_ne_true (hheader.symm.trans (by decide))

end Token

end Editor
end Masthead
