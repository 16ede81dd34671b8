import Masthead.Proofs.Header.Definitions
import Masthead.Proofs.Language.Recognition
import Masthead.Proofs.LineEnd
import Masthead.Proofs.Path

/-!
# Definition files

A line that lists extensions behind the keyword opens a section, and the lines up to the next such
line are its body. An extension has the body of the last section that lists it, whatever line ending
the file is written with.
-/
namespace Masthead
open Text LineEnding

namespace Text

variable {blanks word t : Text} {ws : List Text}

/-- The text spells words, with blanks between them and perhaps at its ends. -/
inductive Spells : Text → List Text → Prop
  | blank {blanks : Text} (h : blanks.isAllBlank) : Spells blanks []
  | word {blanks word rest : Text} {ws : List Text} (hblanks : blanks.isAllBlank)
      (hword : IsWord word) (hrest : ∀ c ∈ rest.head?, isBlank c) (h : Spells rest ws) :
      Spells (blanks ++ word ++ rest) (word :: ws)

theorem words_blanks_append (h : blanks.isAllBlank) (t : Text) : words (blanks ++ t) = words t := by
  induction blanks with
  | nil => rfl
  | cons c blanks ih =>
    rw [isAllBlank_cons, Bool.and_eq_true] at h
    rw [List.cons_append, words, splitAll, if_pos h.1, List.filter_cons_of_neg (by simp), ← words,
      ih h.2]

theorem words_of_isAllBlank (h : blanks.isAllBlank) : words blanks = [] := by
  simpa [words, splitAll] using words_blanks_append h []

theorem splitAll_append_of_unbroken {p : Char → Bool} (h : ∀ c ∈ word, p c = false) (t : Text) :
    splitAll p (word ++ t) = (splitAll p t).modifyHead (word ++ ·) := by
  obtain ⟨run, runs, hruns⟩ := List.exists_cons_of_ne_nil (splitAll_ne_nil p t)
  rw [hruns, List.modifyHead_cons]
  induction word with
  | nil => exact hruns
  | cons c word ih =>
    rw [List.cons_append, splitAll, if_neg (by simp [h c]),
      ih fun c hc => h c (List.mem_cons_of_mem _ hc)]
    rfl

theorem eq_of_splitAll_eq_singleton {p : Char → Bool} (h : splitAll p t = [word]) : t = word := by
  induction t generalizing word with
  | nil => simpa [splitAll] using h
  | cons c t ih =>
    obtain ⟨run, runs, hruns⟩ := List.exists_cons_of_ne_nil (splitAll_ne_nil p t)
    rw [splitAll, hruns] at h
    cases hc : p c with
    | true => simp [hc] at h
    | false =>
      obtain ⟨rfl, rfl⟩ : c :: run = word ∧ runs = [] := by simpa [hc] using h
      rw [ih hruns]

theorem getLast?_splitAll_iff {p : Char → Bool} (hne : t ≠ []) :
    (splitAll p t).getLast? = some [] ↔ ∃ c, t.getLast? = some c ∧ p c := by
  induction t with
  | nil => exact absurd rfl hne
  | cons c t ih =>
    obtain ⟨run, runs, hruns⟩ := List.exists_cons_of_ne_nil (splitAll_ne_nil p t)
    by_cases ht : t = []
    · subst ht
      cases hc : p c <;> simp [splitAll, hc]
    · rw [List.getLast?_cons_of_ne_nil ht, ← ih ht, splitAll, hruns]
      cases hc : p c with
      | true => simp
      | false =>
        cases runs with
        | nil => simpa [eq_of_splitAll_eq_singleton hruns] using ht
        | cons run' runs => simp

theorem words_word_append (hword : IsWord word) (ht : ∀ c ∈ t.head?, isBlank c) :
    words (word ++ t) = word :: words t := by
  rw [words, splitAll_append_of_unbroken hword.2]
  cases t with
  | nil => simp [splitAll, words, hword.1]
  | cons c t => simp [splitAll, words, ht c rfl, hword.1]

theorem Spells.words_eq (h : Spells t ws) : words t = ws := by
  induction h with
  | blank h => exact words_of_isAllBlank h
  | word hblanks hword hrest _ ih =>
    rw [List.append_assoc, words_blanks_append hblanks, words_word_append hword hrest, ih]

theorem exists_spells (t : Text) : ∃ ws, Spells t ws := by
  induction hn : t.length using Nat.strong_induction_on generalizing t with
  | _ n ih =>
    obtain ⟨blanks, hblanks, ht⟩ := exists_append_trimStart t
    cases hcore : t.trimStart with
    | nil =>
      rw [hcore, List.append_nil] at ht
      exact ⟨[], ht ▸ .blank hblanks⟩
    | cons c core =>
      have hc : isBlank c = false := isBlank_head_trimStart hcore
      have hword : IsWord ((c :: core).takeWhile (!isBlank ·)) :=
        ⟨by simp [hc], fun d hd => by simpa using List.mem_takeWhile_imp hd⟩
      have hrest : ∀ d ∈ ((c :: core).dropWhile (!isBlank ·)).head?, isBlank d := fun d hd => by
        simpa using head?_dropWhile _ _ d hd
      have hparts : (c :: core).takeWhile (!isBlank ·) ++ (c :: core).dropWhile (!isBlank ·) =
          c :: core := List.takeWhile_append_dropWhile
      have hlength : ((c :: core).dropWhile (!isBlank ·)).length < n := by
        have := congrArg List.length hparts
        have := congrArg List.length ht
        have := List.length_pos_iff.mpr hword.1
        simp only [List.length_append, hcore] at *
        omega
      obtain ⟨ws, hws⟩ := ih _ hlength _ rfl
      have hspells := Spells.word hblanks hword hrest hws
      rw [List.append_assoc, hparts, ← hcore, ← ht] at hspells
      exact ⟨_, hspells⟩

theorem spells_iff : Spells t ws ↔ words t = ws := by
  refine ⟨Spells.words_eq, ?_⟩
  rintro rfl
  obtain ⟨ws, hws⟩ := exists_spells t
  rwa [hws.words_eq]

end Text

/-! ## Lines -/

namespace Lines

variable {lines : List Text}

theorem head?_join_ne (h : Header.Unbroken lines) :
    (join LineEnding.cr.text lines).head? ≠ some '\n' := by
  cases lines with
  | nil => simp [join]
  | cons line lines =>
    cases line with
    | nil => cases lines <;> simp [join, LineEnding.text]
    | cons c line =>
      have hc := h (c :: line) (by simp) c (by simp)
      have hhead : (join LineEnding.cr.text ((c :: line) :: lines)).head? = some c := by
        cases lines <;> simp [join]
      rw [hhead, ne_eq, Option.some.injEq]
      rintro rfl
      simp [isLineBreak] at hc

theorem contents_join (h : Header.Unbroken lines) (hne : lines ≠ []) (e : LineEnding) :
    (ofText (join e.text lines)).contents = lines := by
  induction lines with
  | nil => exact absurd rfl hne
  | cons line lines ih =>
    have hline := h line (by simp)
    have hlines : Header.Unbroken lines := fun line hmem => h line (List.mem_cons_of_mem _ hmem)
    cases lines with
    | nil => simp [join, ofText_unbroken hline, contents]
    | cons next lines =>
      have hhead : e = .cr → (join e.text (next :: lines)).head? ≠ some '\n' := by
        rintro rfl
        exact head?_join_ne hlines
      have hcut : (ofText (join e.text (line :: next :: lines))).contents =
          line :: (ofText (join e.text (next :: lines))).contents := by
        rw [join_cons_cons, List.append_assoc, ofText_line_append hline hhead]
        rfl
      rw [hcut, ih hlines (by simp)]

theorem splitAll_replaceAll (t : Text) :
    splitAll (· == '\n') (replaceAll ['\n'] t) = (ofText t).contents := by
  have hcuts := cuts_ofText t
  have hlines : ∀ line ∈ (ofText t).contents, '\n' ∉ line := fun line hline hmem => by
    simpa [isLineBreak] using hcuts.unbroken line hline _ hmem
  rw [replaceAll_eq_join hcuts, splitAll_eq_splitOnP]
  exact List.splitOn_intercalate '\n' hlines (by simp [contents])

end Lines

namespace Header

variable {line key : Text} {lines body extensions ws : List Text}

/-! ## Sections -/

/-- The line lists words behind the keyword, which may be indented and written in any case. -/
def ListsWords (line : Text) (ws : List Text) : Prop :=
  ∃ indent keyword listed, line = indent ++ keyword ++ listed ∧ indent.isAllBlank ∧
    keyword.map Char.toLower = sectionKeyword ∧ Spells listed ws

def OpensSection (line : Text) : Prop := ∃ ws, ListsWords line ws

def OpensSectionFor (key line : Text) : Prop :=
  ∃ ws, ListsWords line ws ∧ key ∈ ws.map normalizeExtension

namespace Definitions

theorem sectionLine?_eq_some_iff :
    sectionLine? line = some extensions ↔
      ∃ ws, ListsWords line ws ∧ extensions = ws.map normalizeExtension := by
  unfold sectionLine?
  dsimp only
  constructor
  · split
    · rename_i hkeyword
      intro h
      refine ⟨_, ⟨line.takeWhile isBlank, _, _, ?_, isAllBlank_takeWhile line, hkeyword,
        spells_iff.mpr rfl⟩, (Option.some.inj h).symm⟩
      rw [List.append_assoc, List.take_append_drop, takeWhile_append_trimStart]
    · rintro ⟨⟩
  · rintro ⟨ws, ⟨indent, keyword, listed, rfl, hindent, hkeyword, hspells⟩, rfl⟩
    have hlength : keyword.length = sectionKeyword.length := by
      rw [← hkeyword, List.length_map]
    have htrimmed : trimStart (indent ++ keyword ++ listed) = keyword ++ listed := by
      rw [List.append_assoc, trimStart_append hindent]
      obtain ⟨c, keyword, rfl⟩ : ∃ c rest, keyword = c :: rest := by
        refine List.exists_cons_of_ne_nil ?_
        rintro rfl
        cases hlength
      have hc : c.toLower = 'e' := (List.cons.inj hkeyword).1
      exact trimStart_cons (by rw [← isBlank_toLower, hc]; decide) _
    rw [htrimmed, List.take_left' hlength, if_pos hkeyword, List.drop_left' hlength,
      spells_iff.mp hspells]

theorem isSome_sectionLine?_iff : (sectionLine? line).isSome ↔ OpensSection line := by
  rw [Option.isSome_iff_exists]
  constructor
  · rintro ⟨extensions, h⟩
    obtain ⟨ws, hws, -⟩ := sectionLine?_eq_some_iff.mp h
    exact ⟨ws, hws⟩
  · rintro ⟨ws, hws⟩
    exact ⟨_, sectionLine?_eq_some_iff.mpr ⟨ws, hws, rfl⟩⟩

theorem sectionLine?_eq_none_iff : sectionLine? line = none ↔ ¬ OpensSection line := by
  rw [← isSome_sectionLine?_iff, Option.not_isSome_iff_eq_none]

theorem exists_sectionLine?_iff :
    (∃ extensions, sectionLine? line = some extensions ∧ key ∈ extensions) ↔
      OpensSectionFor key line := by
  constructor
  · rintro ⟨extensions, h, hkey⟩
    obtain ⟨ws, hws, rfl⟩ := sectionLine?_eq_some_iff.mp h
    exact ⟨ws, hws, hkey⟩
  · rintro ⟨ws, hws, hkey⟩
    exact ⟨_, sectionLine?_eq_some_iff.mpr ⟨ws, hws, rfl⟩, hkey⟩

section Recursion

/-- The lines up to the first that opens a section, and the sections. -/
def sections : List Text → List Text × List Section
  | [] => ([], [])
  | line :: lines =>
    let (above, below) := sections lines
    match sectionLine? line with
    | some extensions => ([], ⟨extensions, above⟩ :: below)
    | none => (line :: above, below)

variable {above rest : List Text} {before after : List Section} {s : Section}

theorem sections_cons_of_some (h : sectionLine? line = some extensions) (lines : List Text) :
    sections (line :: lines) = ([], ⟨extensions, (sections lines).1⟩ :: (sections lines).2) := by
  rw [sections, h]

theorem sections_cons_of_none (h : sectionLine? line = none) (lines : List Text) :
    sections (line :: lines) = (line :: (sections lines).1, (sections lines).2) := by
  rw [sections, h]

theorem foldl_readLine_concat (before : List Section) (s : Section) (lines : List Text) :
    lines.foldl readLine (before ++ [s]) =
      before ++ ⟨s.extensions, s.lines ++ (sections lines).1⟩ :: (sections lines).2 := by
  induction lines generalizing before s with
  | nil => simp [sections]
  | cons line lines ih =>
    cases h : sectionLine? line with
    | some extensions =>
      have hread : readLine (before ++ [s]) line = (before ++ [s]) ++ [⟨extensions, []⟩] := by
        rw [readLine, h]
      rw [List.foldl_cons, hread, ih, sections_cons_of_some h]
      simp
    | none => simp [readLine, addLine, h, sections_cons_of_none h, ih]

theorem foldl_readLine (lines : List Text) : lines.foldl readLine [] = (sections lines).2 := by
  induction lines with
  | nil => rfl
  | cons line lines ih =>
    cases h : sectionLine? line with
    | some extensions =>
      have hread : readLine [] line = [] ++ [⟨extensions, []⟩] := by rw [readLine, h]
      rw [List.foldl_cons, hread, foldl_readLine_concat, sections_cons_of_some h]
      rfl
    | none =>
      have hread : readLine [] line = [] := by rw [readLine, h]; rfl
      rw [List.foldl_cons, hread, ih, sections_cons_of_none h]

theorem readSections_eq (t : Text) : readSections t = (sections (Lines.ofText t).contents).2 := by
  have hpieces := Lines.splitAll_replaceAll t
  unfold readSections feedLines
  dsimp only
  generalize hu : replaceAll ['\n'] t = u at *
  rw [← foldl_readLine, ← hpieces]
  by_cases hnil : u = []
  · subst hnil
    rfl
  · have hlast := getLast?_splitAll_iff (p := (· == '\n')) hnil
    by_cases hempty : (splitAll (· == '\n') u).getLast? = some []
    · obtain ⟨pieces, hconcat⟩ := List.getLast?_eq_some_iff.mp hempty
      have hend : u.getLast? = some '\n' := by simpa using hlast.mp hempty
      rw [if_pos hempty, if_pos hend, hconcat, List.dropLast_concat, List.foldl_concat]
      rfl
    · have hend : u.getLast? ≠ some '\n' := fun hend => hempty (hlast.mpr ⟨_, hend, by simp⟩)
      rw [if_neg hempty, if_neg hend]

theorem sections_split (lines : List Text) :
    ∃ rest, lines = (sections lines).1 ++ rest ∧
      (∀ line ∈ (sections lines).1, ¬ OpensSection line) ∧
      (∀ line ∈ rest.head?, OpensSection line) ∧ sections rest = ([], (sections lines).2) := by
  induction lines with
  | nil => exact ⟨[], rfl, by simp [sections], by simp, rfl⟩
  | cons line lines ih =>
    cases h : sectionLine? line with
    | some extensions =>
      rw [sections_cons_of_some h]
      refine ⟨line :: lines, rfl, by simp, ?_, sections_cons_of_some h lines⟩
      simpa using isSome_sectionLine?_iff.mp (by rw [h]; rfl)
    | none =>
      obtain ⟨rest, hlines, hbody, hhead, hrest⟩ := ih
      rw [sections_cons_of_none h]
      refine ⟨rest, by rw [List.cons_append, ← hlines], ?_, hhead, hrest⟩
      exact List.forall_mem_cons.mpr ⟨sectionLine?_eq_none_iff.mp h, hbody⟩

theorem sections_body_append (hbody : ∀ line ∈ body, ¬ OpensSection line)
    (hrest : ∀ line ∈ rest.head?, OpensSection line) :
    sections (body ++ rest) = (body, (sections rest).2) := by
  induction body with
  | nil =>
    cases rest with
    | nil => rfl
    | cons line rest =>
      obtain ⟨extensions, h⟩ :=
        Option.isSome_iff_exists.mp (isSome_sectionLine?_iff.mpr (hrest line rfl))
      rw [List.nil_append, sections_cons_of_some h]
  | cons line body ih =>
    have hline := sectionLine?_eq_none_iff.mpr (hbody line (by simp))
    rw [List.cons_append, sections_cons_of_none hline,
      ih fun line hmem => hbody line (List.mem_cons_of_mem _ hmem)]

theorem sections_append_cons (h : OpensSection line) (above lines : List Text) :
    sections (above ++ line :: lines) =
      ((sections above).1, (sections above).2 ++ (sections (line :: lines)).2) := by
  obtain ⟨extensions, hline⟩ := Option.isSome_iff_exists.mp (isSome_sectionLine?_iff.mpr h)
  induction above with
  | nil =>
    rw [List.nil_append, sections_cons_of_some hline]
    rfl
  | cons first above ih =>
    cases hfirst : sectionLine? first with
    | some extensions' =>
      rw [List.cons_append, sections_cons_of_some hfirst, sections_cons_of_some hfirst, ih]
      rfl
    | none => rw [List.cons_append, sections_cons_of_none hfirst, sections_cons_of_none hfirst, ih]

theorem sections_of_parts (hline : sectionLine? line = some extensions)
    (hbody : ∀ line ∈ body, ¬ OpensSection line) (hrest : ∀ line ∈ rest.head?, OpensSection line) :
    (sections (above ++ line :: (body ++ rest))).2 =
      (sections above).2 ++ ⟨extensions, body⟩ :: (sections rest).2 := by
  rw [sections_append_cons (isSome_sectionLine?_iff.mp (by rw [hline]; rfl)),
    sections_cons_of_some hline, sections_body_append hbody hrest]

theorem exists_parts_of_sections (h : (sections lines).2 = before ++ s :: after) :
    ∃ above line rest, lines = above ++ line :: (s.lines ++ rest) ∧
      sectionLine? line = some s.extensions ∧ (∀ line ∈ s.lines, ¬ OpensSection line) ∧
      (∀ line ∈ rest.head?, OpensSection line) ∧ (sections rest).2 = after := by
  induction lines generalizing before with
  | nil => simp [sections] at h
  | cons line lines ih =>
    cases hline : sectionLine? line with
    | some extensions =>
      rw [sections_cons_of_some hline] at h
      cases before with
      | nil =>
        obtain ⟨rfl, rfl⟩ := List.cons.inj h
        obtain ⟨rest, hlines, hbody, hhead, hrest⟩ := sections_split lines
        exact ⟨[], line, rest, congrArg (line :: ·) hlines, hline, hbody, hhead, by rw [hrest]⟩
      | cons first before =>
        obtain ⟨above, opening, rest, rfl, hparts⟩ := ih (List.cons.inj h).2
        exact ⟨line :: above, opening, rest, rfl, hparts⟩
    | none =>
      rw [sections_cons_of_none hline] at h
      obtain ⟨above, opening, rest, rfl, hparts⟩ := ih h
      exact ⟨line :: above, opening, rest, rfl, hparts⟩

theorem extensions_sections (lines : List Text) :
    (sections lines).2.map (·.extensions) = lines.filterMap sectionLine? := by
  induction lines with
  | nil => rfl
  | cons line lines ih =>
    cases hline : sectionLine? line with
    | some extensions => simp [sections_cons_of_some hline, hline, ih]
    | none => simp [sections_cons_of_none hline, hline, ih]

theorem exists_section_iff :
    (∃ s ∈ (sections lines).2, key ∈ s.extensions) ↔ ∃ line ∈ lines, OpensSectionFor key line := by
  calc (∃ s ∈ (sections lines).2, key ∈ s.extensions)
      ↔ ∃ extensions ∈ (sections lines).2.map (·.extensions), key ∈ extensions := by simp
    _ ↔ ∃ extensions ∈ lines.filterMap sectionLine?, key ∈ extensions := by
      rw [extensions_sections]
    _ ↔ ∃ line ∈ lines, ∃ extensions, sectionLine? line = some extensions ∧ key ∈ extensions := by
      simp only [List.mem_filterMap]
      exact ⟨fun ⟨extensions, ⟨line, hline, h⟩, hkey⟩ => ⟨line, hline, extensions, h, hkey⟩,
        fun ⟨line, hline, extensions, h, hkey⟩ => ⟨extensions, ⟨line, hline, h⟩, hkey⟩⟩
    _ ↔ ∃ line ∈ lines, OpensSectionFor key line := by simp only [exists_sectionLine?_iff]

end Recursion

/-! ## The map of a file -/

def insertsOf (s : Section) : List (Text × List Text) := s.extensions.map (·, s.lines)

theorem parse_eq_ofInserts (t : Text) :
    parse t = ofInserts ((sections (Lines.ofText t).contents).2.flatMap insertsOf) := by
  rw [ofInserts, List.foldl_flatMap, parse, readSections_eq]
  simp only [insertsOf, List.foldl_map]

theorem lastInsert_append {xs ys : List (Text × List Text)} :
    LastInsert (xs ++ ys) key body ↔
      LastInsert ys key body ∨
        (∀ i ∈ ys, normalizeExtension i.1 ≠ key) ∧ LastInsert xs key body := by
  induction ys using List.reverseRecOn with
  | nil => simp [LastInsert]
  | append_singleton ys i ih =>
    obtain ⟨extension, ls⟩ := i
    rw [← List.append_assoc, lastInsert_concat, lastInsert_concat, ih]
    by_cases hkey : normalizeExtension extension = key
    · have hnot : ¬ ∀ i ∈ ys ++ [(extension, ls)], normalizeExtension i.1 ≠ key := fun h =>
        h (extension, ls) (by simp) hkey
      simp only [if_pos hkey, hnot, false_and, or_false]
    · simp [hkey, or_imp, forall_and]

theorem lastInsert_insertsOf {s : Section} :
    LastInsert (insertsOf s) key body ↔
      key ∈ s.extensions.map normalizeExtension ∧ body = s.lines := by
  obtain ⟨extensions, ls⟩ := s
  unfold insertsOf
  dsimp only
  induction extensions using List.reverseRecOn with
  | nil => simp [LastInsert]
  | append_singleton extensions extension ih =>
    rw [List.map_append, List.map_singleton, lastInsert_concat, ih]
    by_cases hkey : normalizeExtension extension = key
    · simp [hkey]
    · simp [hkey, Ne.symm hkey]

theorem lastInsert_flatMap {ss : List Section} :
    LastInsert (ss.flatMap insertsOf) key body ↔
      ∃ before s after, ss = before ++ s :: after ∧ key ∈ s.extensions.map normalizeExtension ∧
        body = s.lines ∧ ∀ s ∈ after, key ∉ s.extensions.map normalizeExtension := by
  induction ss using List.reverseRecOn with
  | nil => simp [LastInsert]
  | append_singleton ss s ih =>
    have hfor : (∀ i ∈ insertsOf s, normalizeExtension i.1 ≠ key) ↔
        key ∉ s.extensions.map normalizeExtension := by
      simp [insertsOf]
    rw [List.flatMap_append, List.flatMap_singleton, lastInsert_append, lastInsert_insertsOf, hfor,
      ih]
    constructor
    · rintro (⟨hkey, rfl⟩ | ⟨hs, before, s', after, rfl, hkey, rfl, hafter⟩)
      · exact ⟨ss, s, [], rfl, hkey, rfl, by simp⟩
      · refine ⟨before, s', after ++ [s], by simp, hkey, rfl, fun s'' hs'' => ?_⟩
        rcases List.mem_append.mp hs'' with hs'' | hs''
        · exact hafter s'' hs''
        · rwa [List.mem_singleton.mp hs'']
    · rintro ⟨before, s', after, heq, hkey, rfl, hafter⟩
      rcases List.eq_nil_or_concat' after with rfl | ⟨after, last, rfl⟩
      · obtain ⟨-, hlast⟩ := List.append_inj' heq rfl
        obtain rfl : s = s' := by simpa using hlast
        exact .inl ⟨hkey, rfl⟩
      · rw [← List.cons_append, ← List.append_assoc] at heq
        obtain ⟨rfl, hlast⟩ := List.append_inj' heq rfl
        obtain rfl : s = last := by simpa using hlast
        exact .inr ⟨hafter s (by simp), before, s', after, rfl, hkey, rfl,
          fun s hs => hafter s (by simp [hs])⟩

/-- The body of the last section for the extension `key`. -/
def LastSection (lines : List Text) (key : Text) (body : List Text) : Prop :=
  ∃ above line rest, lines = above ++ line :: (body ++ rest) ∧ OpensSectionFor key line ∧
    (∀ line ∈ body, ¬ OpensSection line) ∧ (∀ line ∈ rest.head?, OpensSection line) ∧
    ∀ line ∈ rest, ¬ OpensSectionFor key line

theorem normalize_sectionLine? (h : sectionLine? line = some extensions) :
    extensions.map normalizeExtension = extensions := by
  obtain ⟨ws, -, rfl⟩ := sectionLine?_eq_some_iff.mp h
  simp

theorem map_normalizeExtension_of_mem {s : Section} (h : s ∈ (sections lines).2) :
    s.extensions.map normalizeExtension = s.extensions := by
  have hmem : s.extensions ∈ lines.filterMap sectionLine? := by
    rw [← extensions_sections]
    exact List.mem_map_of_mem h
  obtain ⟨line, -, hline⟩ := List.mem_filterMap.mp hmem
  exact normalize_sectionLine? hline

theorem lastInsert_sections :
    LastInsert ((sections lines).2.flatMap insertsOf) key body ↔ LastSection lines key body := by
  rw [lastInsert_flatMap]
  constructor
  · rintro ⟨before, s, after, hsections, hkey, rfl, hafter⟩
    obtain ⟨above, line, rest, hlines, hline, hbody, hhead, hrest⟩ :=
      exists_parts_of_sections hsections
    rw [normalize_sectionLine? hline] at hkey
    refine ⟨above, line, rest, hlines, exists_sectionLine?_iff.mp ⟨_, hline, hkey⟩, hbody, hhead,
      ?_⟩
    intro other hother hopens
    obtain ⟨s', hs', hkey'⟩ := exists_section_iff.mpr ⟨other, hother, hopens⟩
    have hnormal := map_normalizeExtension_of_mem hs'
    exact hafter s' (hrest ▸ hs') (hnormal.symm ▸ hkey')
  · rintro ⟨above, line, rest, rfl, hopens, hbody, hhead, hrest⟩
    obtain ⟨extensions, hline, hkey⟩ := exists_sectionLine?_iff.mpr hopens
    refine ⟨_, ⟨extensions, body⟩, _, sections_of_parts hline hbody hhead, ?_, rfl, ?_⟩
    · rwa [normalize_sectionLine? hline]
    · intro s hs hkey'
      rw [map_normalizeExtension_of_mem hs] at hkey'
      obtain ⟨other, hother, hopens'⟩ := exists_section_iff.mp ⟨s, hs, hkey'⟩
      exact hrest other hother hopens'

theorem isWord_of_mem_spells {t word : Text} (h : Spells t ws) (hmem : word ∈ ws) :
    IsWord word := by
  induction h with
  | blank => cases hmem
  | word _ hword _ _ ih =>
    rcases List.mem_cons.mp hmem with rfl | hmem
    · exact hword
    · exact ih hmem

theorem ne_nil_of_opensSectionFor (h : OpensSectionFor key line) : key ≠ [] := by
  obtain ⟨ws, ⟨indent, keyword, listed, -, -, -, hspells⟩, hkey⟩ := h
  obtain ⟨word, hmem, rfl⟩ := List.mem_map.mp hkey
  obtain ⟨hne, hblank⟩ := isWord_of_mem_spells hspells hmem
  obtain ⟨c, word, rfl⟩ := List.exists_cons_of_ne_nil hne
  rw [ne_eq, normalizeExtension_eq_nil_iff, isAllBlank_cons, hblank c (by simp)]
  simp

theorem parse_join_eq (h : Unbroken lines) (e : LineEnding) :
    parse (join e.text lines) = ofInserts ((sections lines).2.flatMap insertsOf) := by
  rw [parse_eq_ofInserts]
  by_cases hne : lines = []
  · subst hne
    rfl
  · rw [Lines.contents_join h hne]

/-- A file of definitions gives every extension the body of the last section that lists it, and it
does so in every line ending. -/
theorem parse_join (h : Unbroken lines) (e : LineEnding) :
    (parse (join e.text lines)).Distinct ∧
      (∀ key body, (key, body) ∈ (parse (join e.text lines)).entries ↔ LastSection lines key body) ∧
      ∀ e' : LineEnding, parse (join e'.text lines) = parse (join e.text lines) := by
  rw [parse_join_eq h]
  refine ⟨distinct_ofInserts _, fun key body => ?_, fun e' => parse_join_eq h e'⟩
  rw [mem_entries_ofInserts, lastInsert_sections]
  refine and_iff_right_of_imp ?_
  rintro ⟨above, line, rest, -, hopens, -⟩
  exact ne_nil_of_opensSectionFor hopens

/-- The lines of a file that gives `.rs` files a header twice and ends with a line ending. -/
def twiceDefined : List Text :=
  ["about".toList, "  Extensions:  .RS b.rs".toList, "// a".toList, [], "extensions: rs".toList,
    "// b".toList, []]

/-- The second header counts, with the empty line at the end of the file. -/
theorem parse_join_twiceDefined :
    Unbroken twiceDefined ∧ (parse (join LineEnding.crlf.text twiceDefined)).Distinct ∧
      (".rs".toList, ["// b".toList, []]) ∈
        (parse (join LineEnding.crlf.text twiceDefined)).entries ∧
      LastSection twiceDefined ".rs".toList ["// b".toList, []] ∧
      parse (join LineEnding.cr.text twiceDefined) =
        parse (join LineEnding.crlf.text twiceDefined) := by
  have hunbroken : Unbroken twiceDefined := by decide
  have hmem : (".rs".toList, ["// b".toList, []]) ∈
      (parse (join LineEnding.crlf.text twiceDefined)).entries := by decide +kernel
  obtain ⟨hdistinct, hentries, hsame⟩ := parse_join hunbroken .crlf
  exact ⟨hunbroken, hdistinct, hmem, (hentries _ _).mp hmem, hsame .cr⟩

end Definitions
end Header
end Masthead
