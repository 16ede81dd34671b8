import Masthead.Config.Basic
import Masthead.Proofs.Editor.BlankHeader
import Masthead.Proofs.Language.Extension
import Masthead.Proofs.Language.Preamble
import Masthead.Proofs.Task.Interleaving

/-!
# Languages that stay valid

A configuration is validated as it was written, and its languages are normalized after that, once
when the configuration is read and once more by the editor. Whether a language is valid does not
depend on how often it was normalized, and the built-in languages are valid, so an editor with the
languages of a configuration never comes upon an invalid one.
-/
namespace Masthead
open Text

namespace Language

variable {l : Language} {pattern : Option Pattern}

/-- What validation asks of a language. -/
structure IsValid (l : Language) : Prop where
  named : ∃ extension ∈ l.extensions, extension.isAllBlank = false
  regions : l.regionStart.isSome = l.regionEnd.isSome
  blocks : l.blockStart.isSome = l.blockEnd.isSome
  comments : l.lineComment.isSome ∨ l.blockStart.isSome
  skips : ∃ pattern, l.skipPattern? = .ok pattern

theorem validate_eq_ok_iff : l.validate = .ok () ↔ l.IsValid := by
  unfold validate
  split
  · rename_i hblank
    refine iff_of_false nofun fun h => ?_
    obtain ⟨extension, hmem, hnot⟩ := h.named
    exact Bool.false_ne_true (hnot.symm.trans (List.all_eq_true.mp hblank extension hmem))
  · rename_i hnamed
    split
    · rename_i hregions
      exact iff_of_false nofun fun h => bne_iff_ne.mp hregions h.regions
    · rename_i hregions
      split
      · rename_i hblocks
        exact iff_of_false nofun fun h => bne_iff_ne.mp hblocks h.blocks
      · rename_i hblocks
        split
        · rename_i hcomments
          refine iff_of_false nofun fun h => ?_
          simp only [Bool.and_eq_true, Option.isNone_iff_eq_none] at hcomments
          have := h.comments
          simp [hcomments.1, hcomments.2] at this
        · rename_i hcomments
          cases hskip : l.skipPattern? with
          | error cause =>
            refine iff_of_false nofun fun h => ?_
            obtain ⟨pattern, hpattern⟩ := h.skips
            cases hskip.symm.trans hpattern
          | ok pattern =>
            refine iff_of_true rfl
              { named := by simpa using hnamed
                regions := by simpa using hregions
                blocks := by simpa using hblocks
                comments := ?_
                skips := ⟨pattern, hskip⟩ }
            simp only [Bool.and_eq_true, Option.isNone_iff_eq_none, not_and_or] at hcomments
            exact hcomments.imp Option.isSome_iff_ne_none.mpr Option.isSome_iff_ne_none.mpr

/-! ## Normalized languages -/

theorem skipPattern?_normalized_eq_ok_iff :
    l.normalized.skipPattern? = .ok pattern ↔ l.skipPattern? = .ok pattern := by
  unfold skipPattern?
  have hskip : l.normalized.skip = l.skip := rfl
  rw [hskip]
  cases l.skip with
  | none => rfl
  | some expression =>
    cases expression with
    | nil => rfl
    | cons c expression =>
      dsimp only
      cases Pattern.parse (c :: expression) with
      | error cause => exact iff_of_false nofun nofun
      | ok p => rfl

theorem isAllBlank_normalizeExtension (extension : Text) :
    (normalizeExtension extension).isAllBlank = extension.isAllBlank := by
  rw [Bool.eq_iff_iff, ← normalizeExtension_eq_nil_iff, normalizeExtension_normalizeExtension,
    normalizeExtension_eq_nil_iff]

theorem isValid_normalized_iff : l.normalized.IsValid ↔ l.IsValid := by
  constructor
  · rintro ⟨⟨extension, hmem, hnot⟩, hregions, hblocks, hcomments, pattern, hpattern⟩
    obtain ⟨written, hwritten, rfl⟩ := List.mem_map.mp hmem
    rw [isAllBlank_normalizeExtension] at hnot
    exact ⟨⟨written, hwritten, hnot⟩, hregions, hblocks, hcomments, pattern,
      skipPattern?_normalized_eq_ok_iff.mp hpattern⟩
  · rintro ⟨⟨extension, hmem, hnot⟩, hregions, hblocks, hcomments, pattern, hpattern⟩
    rw [← isAllBlank_normalizeExtension] at hnot
    exact ⟨⟨_, List.mem_map_of_mem hmem, hnot⟩, hregions, hblocks, hcomments, pattern,
      skipPattern?_normalized_eq_ok_iff.mpr hpattern⟩

theorem isValid_builtIn : ∀ l ∈ builtIn, l.IsValid := by
  intro l hl
  have hfields : ∀ l ∈ builtIn, (∃ extension ∈ l.extensions, extension.isAllBlank = false) ∧
      l.regionStart.isSome = l.regionEnd.isSome ∧ l.blockStart.isSome = l.blockEnd.isSome ∧
      (l.lineComment.isSome ∨ l.blockStart.isSome) := by decide
  obtain ⟨hnamed, hregions, hblocks, hcomments⟩ := hfields l hl
  refine ⟨hnamed, hregions, hblocks, hcomments, ?_⟩
  cases hskip : l.skip with
  | none => exact ⟨none, by rw [skipPattern?, hskip]⟩
  | some expression =>
    obtain ⟨kind, rfl⟩ := exists_expression_builtIn hl hskip
    exact ⟨_, skipPattern?_of_expression hskip⟩

end Language

/-! ## Configurations -/

namespace Config

variable {c : Config} {path : Path} {t : Text}

theorem isValid_of_validateLanguages {languages : List Language} {index : Nat}
    (h : validateLanguages index languages = .ok ()) : ∀ l ∈ languages, l.IsValid := by
  induction languages generalizing index with
  | nil => nofun
  | cons l languages ih =>
    rw [validateLanguages] at h
    cases hvalid : l.validate with
    | error cause =>
      rw [hvalid] at h
      cases h
    | ok =>
      rw [hvalid] at h
      exact List.forall_mem_cons.mpr ⟨Language.validate_eq_ok_iff.mp hvalid, ih h⟩

theorem exists_written_of_parse (h : parse path t = .ok c) :
    ∃ (table : Toml.Table) (written : Config), ofTable table = .ok written ∧
      written.validate = .ok () ∧ c = written.normalize := by
  unfold parse at h
  cases hread : (Toml.parse t).bind ofTable with
  | error cause =>
    rw [hread] at h
    cases h
  | ok written =>
    rw [hread] at h
    dsimp only at h
    cases hvalid : written.validate with
    | error cause =>
      rw [hvalid] at h
      cases h
    | ok =>
      rw [hvalid] at h
      cases h
      cases htable : Toml.parse t with
      | error cause =>
        rw [htable] at hread
        cases hread
      | ok table =>
        rw [htable] at hread
        exact ⟨table, written, hread, hvalid, rfl⟩

theorem isValid_of_validate (h : c.validate = .ok ()) : ∀ l ∈ c.languages, l.IsValid := by
  unfold validate at h
  cases hlanguages : validateLanguages 0 c.languages with
  | error cause =>
    rw [hlanguages] at h
    cases h
  | ok => exact isValid_of_validateLanguages hlanguages

theorem isValid_languagesWithBuiltIn (h : parse path t = .ok c) :
    ∀ l ∈ c.languagesWithBuiltIn, l.IsValid := by
  obtain ⟨table, written, -, hvalid, rfl⟩ := exists_written_of_parse h
  intro l hl
  rcases List.mem_append.mp hl with hl | hl
  · obtain ⟨raw, hraw, rfl⟩ := List.mem_map.mp hl
    exact Language.isValid_normalized_iff.mpr (isValid_of_validate hvalid raw hraw)
  · exact Language.isValid_builtIn l hl

end Config

/-! ## Editors -/

namespace Editor

variable {e : Editor} {job : Job}

theorem mem_of_languageFor? {fileName : Text} {l : Language} (h : e.languageFor? fileName = some l) :
    l ∈ e.languages := by
  unfold languageFor? at h
  split at h
  · cases h
  · exact List.mem_of_find?_eq_some h

theorem headerFor_ne_invalidLanguage (job : Job) (fileName : Text) (cause : LanguageError) :
    headerFor job fileName ≠ .error (.invalidLanguage cause) := by
  unfold headerFor
  cases job.headers with
  | none => nofun
  | some definitions =>
    dsimp only
    cases definitions.lookup? fileName with
    | none => nofun
    | some found =>
      dsimp only
      split <;> nofun

/-- Where all languages are valid, a job gets one of them, or it is refused for another reason. -/
theorem resolve_cases (hlanguages : ∀ l ∈ e.languages, l.IsValid) (job : Job) :
    (∃ language header, e.resolve job = .ok (language, header) ∧ language.IsValid) ∨
      ∃ cause, e.resolve job = .error cause ∧ ∀ why, cause ≠ .invalidLanguage why := by
  cases hfile : Header.isDefinitionFile job.path with
  | true => exact .inr ⟨.definitionFile, by simp [resolve, hfile], fun why => by simp⟩
  | false =>
    cases hfound : e.languageFor? job.path.fileName with
    | none =>
      refine .inr ⟨.languageNotFound (shownExtension job.path.fileName), ?_, fun why => by simp⟩
      simp [resolve, hfile, hfound]
    | some language =>
      have hvalid := hlanguages language (mem_of_languageFor? hfound)
      have hrecognizes : e.Recognizes job language :=
        ⟨hfile, hfound, Language.validate_eq_ok_iff.mpr hvalid⟩
      rw [hrecognizes.resolve_eq]
      cases hheader : headerFor job job.path.fileName with
      | error cause =>
        refine .inr ⟨cause, rfl, fun why hwhy => ?_⟩
        exact headerFor_ne_invalidLanguage job _ why (hwhy ▸ hheader)
      | ok header => exact .inl ⟨language, header, rfl, hvalid⟩

theorem exists_ofLanguage {language : Language} (h : language.IsValid)
    (header : Option (List Text)) (keywords : List Text) :
    ∃ rule, Header.Rule.ofLanguage language header keywords = .ok rule := by
  obtain ⟨pattern, hpattern⟩ := h.skips
  exact ⟨_, by rw [Header.Rule.ofLanguage, hpattern]; rfl⟩

theorem ruleFor_ne_invalidLanguage (hlanguages : ∀ l ∈ e.languages, l.IsValid)
    (s : Header.Surroundings) (job : Job) (born : Option Moment) (why : LanguageError) :
    e.ruleFor s job born ≠ .error (.invalidLanguage why) := by
  unfold ruleFor
  obtain ⟨language, header, hresolved, hvalid⟩ | ⟨cause, hresolved, hcause⟩ :=
    resolve_cases hlanguages job
  · obtain ⟨rule, hrule⟩ := exists_ofLanguage hvalid
      (header.map (·.map (Header.Property.expandLine
        (job.properties ++ Header.Property.builtIn s job.path born)))) e.keywords
    rw [hresolved]
    dsimp only
    rw [hrule]
    nofun
  · rw [hresolved]
    exact fun h => hcause why (Except.error.inj h)

/-- Where all languages are valid, no document is refused for an invalid one, whatever the operations
on files answer. -/
theorem yields_document_of_isValid (hlanguages : ∀ l ∈ e.languages, l.IsValid)
    (s : Header.Surroundings) (job : Job) : (e.document s job).Yields fun made =>
      ∀ refusal, made = .error refusal → ∀ why, refusal.cause ≠ .invalidLanguage why := by
  rw [document_eq]
  refine (Task.Yields.of_forall (fun _ => trivial) _).bind fun missing _ => ?_
  cases missing with
  | true =>
    rintro refusal ⟨⟩ why
    exact nofun
  | false =>
    rw [if_neg Bool.false_ne_true]
    refine (Task.Yields.of_forall (fun _ => trivial) _).bind fun born _ => ?_
    unfold documentOf
    cases hrule : e.ruleFor s job born with
    | error cause =>
      rintro refusal ⟨⟩ why rfl
      exact ruleFor_ne_invalidLanguage hlanguages s job born why hrule
    | ok rule => rintro refusal ⟨⟩

theorem isValid_ofLanguages {languages : List Language} (h : ∀ l ∈ languages, l.IsValid)
    (keywords : List Text) : ∀ l ∈ (ofLanguages languages keywords).languages, l.IsValid := by
  intro l hl
  obtain ⟨raw, hraw, rfl⟩ := List.mem_map.mp hl
  exact Language.isValid_normalized_iff.mpr (h raw hraw)

/-- Validity does not depend on normalization. The languages of a configuration that can be read, and
the built-in ones behind them, are valid in the form in which an editor has them, so the editor refuses
no job for an invalid language, whatever the operations on files answer. -/
theorem languages_stay_valid {path : Path} {t : Text} {c : Config} (h : Config.parse path t = .ok c)
    (keywords : List Text) :
    (∀ l : Language, l.normalized.validate = .ok () ↔ l.validate = .ok ()) ∧
    (∀ l ∈ (ofLanguages c.languagesWithBuiltIn keywords).languages, l.validate = .ok ()) ∧
    ∀ (s : Header.Surroundings) (job : Job),
      ((ofLanguages c.languagesWithBuiltIn keywords).document s job).Yields fun made =>
        ∀ refusal, made = .error refusal → ∀ why, refusal.cause ≠ .invalidLanguage why := by
  have hlanguages := isValid_ofLanguages (Config.isValid_languagesWithBuiltIn h) keywords
  refine ⟨fun l => ?_, fun l hl => Language.validate_eq_ok_iff.mpr (hlanguages l hl),
    yields_document_of_isValid hlanguages⟩
  rw [Language.validate_eq_ok_iff, Language.validate_eq_ok_iff, Language.isValid_normalized_iff]

/-- A configuration with an extension that is blank and one that takes more characters in lower case. -/
def dottedConfig : Text :=
  "[[languages]]\nextensions = [\" \", \"İX\\u00A0\"]\nline-comment = \"%\"\nskip-expression = '#![^\\n]*'\n".toList

/-- The language of the configuration, as it is kept. -/
def dottedLanguage : Language where
  extensions := [[], ".i\u0307x".toList]
  lineComment := some "%".toList
  blockStart := none
  blockEnd := none
  regionStart := none
  regionEnd := none
  skip := some "#![^\\n]*".toList

theorem parse_dottedConfig : Config.parse [] dottedConfig = .ok ⟨none, [], [dottedLanguage]⟩ := by
  decide +kernel

/-- The editor finds the language for a file, and makes a document of it. -/
theorem languages_stay_valid_dotted :
    Config.parse [] dottedConfig = .ok ⟨none, [], [dottedLanguage]⟩ ∧
    (∀ l ∈ (ofLanguages (dottedLanguage :: Language.builtIn) []).languages, l.validate = .ok ()) ∧
    (ofLanguages (dottedLanguage :: Language.builtIn) []).languageFor? "a.İX".toList =
      some dottedLanguage ∧
    ∀ (s : Header.Surroundings) (job : Job),
      ((ofLanguages (dottedLanguage :: Language.builtIn) []).document s job).Yields fun made =>
        ∀ refusal, made = .error refusal → ∀ why, refusal.cause ≠ .invalidLanguage why := by
  obtain ⟨-, hvalid, hdocument⟩ := languages_stay_valid parse_dottedConfig []
  exact ⟨parse_dottedConfig, hvalid, by decide +kernel, hdocument⟩

end Editor
end Masthead
