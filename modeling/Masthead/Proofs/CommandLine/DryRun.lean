import Masthead.Proofs.CommandLine.Runs
import Masthead.Proofs.Editor.Pointwise

/-!
# Dry runs

A dry run of files that can be read and replaced says what editing them comes to: both end in the same
summary, and the files hold then what the dry run made of their texts. Files of which two have one copy
may get in each other's way when they are edited.
-/
namespace Masthead.CommandLine
open FileSystem Editor Report Run

/-- Different files, each of which can be replaced. No two of them have one copy. -/
structure Editable (fs : FileSystem) (files : List Path) : Prop where
  replaceable : ∀ path ∈ files, Header.Replaceable fs path
  different : (files.map fs.entry).Nodup
  ownCopy : (files.map fun path => (Header.temporaryPath path).target fs.workingDirectory).Nodup

variable {p : Plan} {s : Header.Surroundings} {fs : FileSystem} {files : List Path} {path : Path}

/-- What editing a file comes to. -/
def expected (p : Plan) (s : Header.Surroundings) (fs : FileSystem) (path : Path) :
    Except Failure Edit :=
  p.editor.outcome s (p.job path .onDisk) (fs.birthTime? path) none (textOf fs path)

theorem report_recordOf (h : isReadable fs path) :
    (recordOf p s fs path).mapError Failure.report =
      (expected p s fs path).mapError Failure.report := by
  unfold recordOf expected outcome
  rw [readText_of_isReadable h]
  cases p.editor.ruleFor s (p.job path .onDisk) (fs.birthTime? path) with
  | error cause => rfl
  | ok rule => exact mapError_applyRule ..

theorem recordOf_eq_ok_iff (h : isReadable fs path) {edit : Edit} :
    recordOf p s fs path = .ok edit ↔ expected p s fs path = .ok edit :=
  ⟨ok_of_mapError_eq (report_recordOf h).symm, ok_of_mapError_eq (report_recordOf h)⟩

/-- A file that was edited holds the text that it was given, also if that is the old one. -/
theorem storedText_expected {edit : Edit} (h : expected p s fs path = .ok edit) :
    storedText (textOf fs path) (.ok edit) = edit.content := by
  rw [storedText]
  split
  · rfl
  · rename_i hchange
    have hunchanged : edit.action = .unchanged := by simpa [Header.Action.isChange] using hchange
    exact (content_of_outcome h hunchanged).symm

namespace Editable

theorem of_texts (hreplaceable : ∀ path ∈ files, Header.Replaceable fs path)
    (hdifferent : (files.map fs.entry).Nodup) (htexts : ∀ path ∈ files, Header.EndsInText path) :
    Editable fs files where
  replaceable := hreplaceable
  different := hdifferent
  ownCopy := by
    have htargets := Header.nodup_target_of_replaceable hreplaceable hdifferent
    refine List.pairwise_map.mpr ((List.pairwise_map.mp htargets).imp_of_mem fun hp hq hne => ?_)
    exact mt (Header.target_inj_of_copy (htexts _ hp) (htexts _ hq)) hne

variable (h : Editable fs files)
include h

theorem separate : Header.Separate fs files :=
  Header.separate_of_replaceable h.replaceable h.different h.ownCopy

theorem isReadable (hpath : path ∈ files) : isReadable fs path := by
  obtain ⟨t, ht⟩ := (h.replaceable path hpath).text
  exact isReadable_of_ok ht

theorem run_edit (hpath : path ∈ files) :
    ((p.editor.edit s (p.job path .onDisk)).run fs).1 = expected p s fs path ∧
      ∀ fs', AgreeOn (Header.reach fs path)
          ((p.editor.edit s (p.job path .onDisk)).run fs).2 fs' →
        fs'.readText path = .ok (storedText (textOf fs path) (expected p s fs path)) := by
  obtain ⟨directory, name, file, hsites⟩ := (h.replaceable path hpath).exists_sites
  have hread := readText_of_isReadable (h.isReadable hpath)
  have hsource : (p.job path .onDisk).source = .onDisk := rfl
  have hrun : (p.editor.edit s (p.job path .onDisk)).run fs =
      concluded fs path (expected p s fs path) := run_edit_onDisk hsource hread
  have htext : file.content = .text (textOf fs path) := by
    obtain ⟨l, file', hentry, hcontent⟩ := Header.entry_of_readText hread
    rw [hsites.file] at hentry
    cases hentry
    exact hcontent
  rw [hrun, concluded_eq hsites, hsites.reach_eq]
  exact ⟨rfl, fun fs' hsame => readText_of_stored hsites htext hsame⟩

end Editable

/-- A dry run ends in the summary that editing the files should have. -/
theorem Checked.agrees {saveTo : Option Path} {recorded : List (Except Failure Edit)}
    {summary : Summary} {fs' : FileSystem} (h : Checked p s saveTo fs files recorded summary fs')
    (hfiles : Editable fs files) : summary.Agrees (tally (files.map (expected p s fs))) := by
  obtain ⟨hperm, rfl, -⟩ := h.recorded_perm
  apply tally_agrees
  have hreports : (files.map (recordOf p s fs)).map (Except.mapError Failure.report) =
      (files.map (expected p s fs)).map (Except.mapError Failure.report) := by
    rw [List.map_map, List.map_map]
    exact List.map_congr_left fun path hpath => report_recordOf (hfiles.isReadable hpath)
  exact hreports ▸ hperm.map _

theorem Edited.as_expected {results : List (Except Failure Edit)} {b : FileBatch} {fs' : FileSystem}
    (h : Edited p s fs files results b fs') (hfiles : Editable fs files) :
    (tally (files.map (expected p s fs))).Agrees (summaryOfFiles b) ∧
      ∀ path ∈ files, fs'.readText path =
        .ok (storedText (textOf fs path) (expected p s fs path)) := by
  obtain ⟨hresults, hsame⟩ := h.results_perm hfiles.separate
  have halone : files.map (expected p s fs) =
      files.map fun path => ((p.editor.edit s (p.job path .onDisk)).run fs).1 :=
    List.map_congr_left fun path hpath => (hfiles.run_edit hpath).1.symm
  constructor
  · rw [h.summary_eq, halone]
    exact tally_agrees (hresults.symm.map _)
  · exact fun path hpath => (hfiles.run_edit hpath).2 fs' (hsame path hpath)

/-- A dry run and a run that edits the files end in the same summary. The dry run changes nothing;
afterwards every file holds the text that the dry run made of it, or its old one. -/
theorem dryRun_agrees_modification (hfiles : Editable fs files) :
    (∃ recorded planned after, Checked p s none fs files recorded planned after) ∧
    (∃ results b edited, Edited p s fs files results b edited) ∧
    ∀ recorded planned after results b edited,
      Checked p s none fs files recorded planned after → Edited p s fs files results b edited →
        planned.Agrees (summaryOfFiles b) ∧ after = fs ∧
        (∀ edit, .ok edit ∈ recorded → edited.readText edit.path = .ok edit.content) ∧
        ∀ path ∈ files,
          (∀ edit, .ok edit ∈ recorded → edit.path = path → edit.action = .unchanged) →
            edited.readText path = fs.readText path := by
  refine ⟨exists_checked p s fs files, exists_edited p s fs files, ?_⟩
  intro recorded planned after results b edited hchecked hedited
  obtain ⟨hperm, -, hafter⟩ := hchecked.recorded_perm
  obtain ⟨hdone, htexts⟩ := hedited.as_expected hfiles
  have hmem : ∀ edit, .ok edit ∈ recorded ↔ ∃ path ∈ files, expected p s fs path = .ok edit := by
    intro edit
    rw [hperm.mem_iff, List.mem_map]
    exact exists_congr fun path => and_congr_right fun hpath =>
      recordOf_eq_ok_iff (hfiles.isReadable hpath)
  have hnames : ∀ path ∈ files, ∀ edit, expected p s fs path = .ok edit → edit.path = path := by
    intro path hpath edit hexpected
    have hrecord := (recordOf_eq_ok_iff (hfiles.isReadable hpath)).mpr hexpected
    rw [← path_of_recordOf p s fs path, hrecord]
    rfl
  refine ⟨(hchecked.agrees hfiles).trans hdone, hafter rfl, ?_, ?_⟩
  · intro edit hedit
    obtain ⟨path, hpath, hexpected⟩ := (hmem edit).mp hedit
    obtain rfl : edit.path = path := hnames path hpath edit hexpected
    rw [htexts edit.path hpath, hexpected, storedText_expected hexpected]
  · intro path hpath hunchanged
    rw [htexts path hpath, readText_of_isReadable (hfiles.isReadable hpath)]
    cases hexpected : expected p s fs path with
    | error failure => rfl
    | ok edit =>
      have haction := hunchanged edit ((hmem edit).mpr ⟨path, hpath, hexpected⟩)
        (hnames path hpath edit hexpected)
      simp [storedText, haction, Header.Action.isChange]

section TwoFiles

/-- Two files, of which one is in a language that nobody has defined. -/
def twoFiles : FileSystem where
  entries := [([Text.encode "a.go".toList], .file { content := .text "code\n".toList }),
    ([Text.encode "c.txt".toList], .file { content := .text "text".toList })]
  workingDirectory := []

/-- A header with tokens for the files of one language. -/
def goPlan : Plan where
  editor := ⟨[Header.slashed], [], 2⟩
  headers := some ⟨[(".go".toList, ["// %CurrentYear% %FileName%".toList])]⟩
  properties := []
  ignoreNonCommentText := false

theorem editable_twoFiles : Editable twoFiles [goPath, txtPath] where
  replaceable := by
    simp only [List.forall_mem_cons, List.not_mem_nil, false_imp_iff, implies_true, and_true]
    have hgo : twoFiles.locate (Header.temporaryPath goPath) = .ok (.vacant [goCopy]) := by rfl
    have htxt : twoFiles.locate (Header.temporaryPath txtPath) =
        .ok (.vacant [Text.encode ".c.txt.lhm-tmp".toList]) := by rfl
    exact ⟨Header.replaceable_of_vacant rfl rfl hgo rfl, Header.replaceable_of_vacant rfl rfl htxt rfl⟩
  different := by decide +kernel
  ownCopy := by decide +kernel

theorem recordOf_twoFiles : [goPath, txtPath].map (recordOf goPlan ⟨⟨0⟩, none⟩ twoFiles) =
    [.ok ⟨goPath, "// 1970 a.go\ncode\n".toList, .inserted⟩,
      .error ⟨txtPath, none, .languageNotFound,
        "No language is configured for extension .txt (c.txt)".toList⟩] := by decide +kernel

/-- The dry run foretells the new header of the one file and the failure of the other. -/
theorem exists_modification_twoFiles : Editable twoFiles [goPath, txtPath] ∧
    ∃ results b edited, Edited goPlan ⟨⟨0⟩, none⟩ twoFiles [goPath, txtPath] results b edited ∧
      Summary.Agrees
        { inserted := [goPath], replaced := [], removed := [], unchanged := 0, skipped := 0
          failures := [⟨txtPath, none, .languageNotFound,
            "No language is configured for extension .txt (c.txt)".toList⟩] } (summaryOfFiles b) ∧
      edited.readText goPath = .ok "// 1970 a.go\ncode\n".toList ∧
      edited.readText txtPath = .ok "text".toList := by
  obtain ⟨⟨recorded, planned, after, hchecked⟩, ⟨results, b, edited, hedited⟩, hagrees⟩ :=
    dryRun_agrees_modification (p := goPlan) (s := ⟨⟨0⟩, none⟩) editable_twoFiles
  obtain ⟨hsummary, -, hedits, hothers⟩ := hagrees _ _ _ _ _ _ hchecked hedited
  obtain ⟨hperm, rfl, -⟩ := hchecked.recorded_perm
  rw [recordOf_twoFiles] at hperm
  refine ⟨editable_twoFiles, results, b, edited, hedited, ?_, ?_, ?_⟩
  · exact (tally_agrees (hperm.symm.map _)).trans hsummary
  · exact hedits _ (hperm.mem_iff.mpr List.mem_cons_self)
  · rw [hothers _ (by simp) ?_]
    · rfl
    · intro edit hedit hpath
      rcases List.mem_cons.mp (hperm.mem_iff.mp hedit) with hgo | htxt
      · cases hgo
        cases hpath
      · cases List.mem_singleton.mp htxt

end TwoFiles

section OneCopy

/-- The results of two edits that write one copy, and the files behind them. The copy is renamed over
the file of the first one with the text of the second one. -/
def crossed : List (Task (Except Failure Edit)) × FileSystem :=
  Task.goOn crossing
    (strangeNames.map fun path => goPlan.editor.edit ⟨⟨0⟩, none⟩ (goPlan.job path .onDisk)) strangeFiles

theorem replaceable_strange : ∀ path ∈ strangeNames, Header.Replaceable strangeFiles path := by
  simp only [strangeNames, List.forall_mem_cons, List.not_mem_nil, false_imp_iff, implies_true,
    and_true]
  have hcopy : ∀ b : UInt8, b = 255 ∨ b = 254 →
      strangeFiles.locate (Header.temporaryPath (b :: Text.encode ".go".toList)) =
        .ok (.vacant [Text.encode ".\uFFFD.go.lhm-tmp".toList]) := by
    rintro b (rfl | rfl) <;> rfl
  exact ⟨Header.replaceable_of_vacant rfl rfl (hcopy 255 (.inl rfl)) rfl,
    Header.replaceable_of_vacant rfl rfl (hcopy 254 (.inr rfl)) rfl⟩

/-- Two files with one copy: the dry run foretells two changes, but one of the files cannot be edited
and the other one gets its text. -/
theorem not_dryRun_agrees : (∀ path ∈ strangeNames, Header.Replaceable strangeFiles path) ∧
    (strangeNames.map strangeFiles.entry).Nodup ∧ ∃ recorded planned results b edited,
      Checked goPlan ⟨⟨0⟩, none⟩ none strangeFiles strangeNames recorded planned strangeFiles ∧
      Edited goPlan ⟨⟨0⟩, none⟩ strangeFiles strangeNames results b edited ∧
      ¬planned.Agrees (summaryOfFiles b) ∧
      ∃ edit, .ok edit ∈ recorded ∧ edited.readText edit.path ≠ .ok edit.content := by
  have hended : ∀ t ∈ crossed.1, t.result?.isSome := by decide +kernel
  obtain ⟨b, hedited⟩ := exists_edited_of_interleaved (Task.interleaved_goOn hended)
  obtain ⟨recorded, planned, after, hchecked⟩ :=
    exists_checked goPlan ⟨⟨0⟩, none⟩ strangeFiles strangeNames
  obtain ⟨hperm, rfl, hafter⟩ := hchecked.recorded_perm
  obtain rfl := hafter rfl
  have hcounts : (tally (strangeNames.map (recordOf goPlan ⟨⟨0⟩, none⟩ strangeFiles))).inserted.length =
      2 ∧ (tally (crossed.1.filterMap Task.result?)).inserted.length = 1 := by decide +kernel
  obtain ⟨edit, hplanned, htext⟩ : ∃ edit : Edit, .ok edit ∈
      strangeNames.map (recordOf goPlan ⟨⟨0⟩, none⟩ strangeFiles) ∧
      crossed.2.readText edit.path ≠ .ok edit.content :=
    ⟨⟨255 :: Text.encode ".go".toList, "// 1970 \uFFFD.go\ncode\n".toList, .inserted⟩,
      by decide +kernel, by decide +kernel⟩
  refine ⟨replaceable_strange, by decide +kernel, recorded, _, _, b, crossed.2, hchecked, hedited, ?_,
    edit, hperm.mem_iff.mpr hplanned, htext⟩
  intro hagrees
  have hsame := ((tally_agrees (hperm.symm.map _)).trans hagrees).inserted.length_eq
  rw [hedited.summary_eq] at hsame
  exact absurd (hcounts.1.symm.trans (hsame.trans hcounts.2)) (by decide)

end OneCopy

end Masthead.CommandLine
