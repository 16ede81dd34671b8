import Masthead.Proofs.FileSystem.Frame

namespace Masthead.FileSystem

variable {fs fs' : FileSystem} {l : Location} {part : Set Location} {p : Path} {file : File}
  {n sibling : Name}

theorem kind?_congr (hsame : AgreeOn {p.target fs.workingDirectory} fs fs') :
    fs'.kind? p = fs.kind? p := by
  cases hplace : fs.locate p with
  | ok place =>
    have hsettled : fs.Settled {p.target fs.workingDirectory} p :=
      settled_of_locate hplace (location_of_locate hplace)
    exact hsettled.kind?_eq hsame
  | error e =>
    have herror : ∀ place, fs'.locate p ≠ .ok place := by
      intro place hplace'
      have hlocation := location_of_locate hplace'
      rw [hsame.workingDirectory] at hlocation
      have hback := locate_congr hplace' hsame.symm.workingDirectory
        (fun k => (hsame.directory k).mp) (fun hsome => hsame.node _ hlocation ▸ hsome)
      simp [hplace] at hback
    cases hplace' : fs'.locate p with
    | ok place => exact absurd hplace' (herror place)
    | error e' => simp [kind?, entry, hplace, hplace', bind, Except.bind]

theorem exists_pieces_of_entry (h : fs.entry p = .ok (l, .file file)) (hn : p.fileName? = some n) :
    ∃ init, p.pieces = init ++ [n] ∧ n ≠ Name.dot ∧ n ≠ Name.dots := by
  obtain ⟨-, -, hpiece, -⟩ := Path.exists_names_of_fileName? hn
  obtain ⟨init, last, hpieces⟩ := (List.eq_nil_or_concat p.pieces).resolve_left
    (List.ne_nil_of_mem hpiece)
  rw [List.concat_eq_append] at hpieces
  have hfile := locate_of_entry h
  have hdot : last ≠ Name.dot := by
    rintro rfl
    have hdir := (hpieces ▸ (locate_eq_ok_iff.mp hfile).2).directory_of_dot
    simp [Place.location, nodeAt?_of_locate hfile] at hdir
  obtain ⟨rfl, hdots⟩ := Path.eq_of_fileName? hn hpieces hdot
  exact ⟨init, hpieces, hdot, hdots⟩

theorem exists_passes_of_entry (h : fs.entry p = .ok (l, .file file))
    (hn : p.fileName? = some n) : ∃ names there,
      Passes fs (if p.isAbsolute then [] else fs.workingDirectory) names there ∧
      ∀ {sibling}, Path.IsName sibling → (p.withFileName sibling).pieces = names ++ [sibling] ∧
        (p.withFileName sibling).isAbsolute = p.isAbsolute := by
  obtain ⟨init, hpieces, hdot, hdots⟩ := exists_pieces_of_entry h hn
  obtain ⟨names, hcomponents, hsibling⟩ := Path.exists_names_withFileName hn
  have hfollows := (locate_eq_ok_iff.mp (locate_of_entry h)).2
  rw [hpieces] at hfollows
  obtain ⟨there, hinit⟩ := hfollows.passes
  have hname : Path.Component.ofPiece n = .name n := by
    rw [Path.Component.ofPiece, if_neg hdot, if_neg hdots]
  have hfilter : names.filter (· ≠ Name.dot) = init.filter (· ≠ Name.dot) := by
    have hall := Path.filter_components p
    rw [hcomponents, hpieces] at hall
    have htexts : ∀ pieces : List Name,
        ((pieces.map Path.Component.ofPiece).filter (· ≠ .here)).map Path.Component.bytes =
          pieces.filter (· ≠ Name.dot) := by
      intro pieces
      rw [List.filter_map, List.map_map,
        show Path.Component.bytes ∘ Path.Component.ofPiece = id from funext Path.bytes_ofPiece,
        List.map_id]
      congr 1
      funext piece
      simp [Path.ofPiece_eq_here_iff]
    have hboth : (names.map Path.Component.ofPiece).filter (· ≠ .here) =
        (init.map Path.Component.ofPiece).filter (· ≠ .here) := by
      cases habsolute : p.isAbsolute <;> simpa [habsolute, hname] using hall
    rw [← htexts, ← htexts, hboth]
  refine ⟨names, there, ?_, fun hname => ⟨(hsibling hname).1, (hsibling hname).2.1⟩⟩
  rw [← passes_filter_iff hinit.directory, hfilter, passes_filter_iff hinit.directory]
  exact hinit

theorem follow_withFileName_of_nameless (h : fs.entry p = .ok (l, .file file))
    (hn : p.fileName? = none) (hname : Path.IsName sibling) :
    fs.follow (if (p.withFileName sibling).isAbsolute then [] else fs.workingDirectory)
      (p.withFileName sibling).pieces = .error .notADirectory := by
  have hsibling : p.withFileName sibling = p.join sibling := by rw [Path.withFileName, hn]
  have hrelative := Path.isAbsolute_of_slashless hname.slashless
  have hplace := locate_of_entry h
  have hfollows := (locate_eq_ok_iff.mp hplace).2
  rw [hsibling, Path.isAbsolute_join hrelative, Path.pieces_join hrelative, hname.pieces,
    hfollows.follow_append_of_file (nodeAt?_of_locate hplace)]

theorem follow_withFileName_of_name (h : fs.entry p = .ok (l, .file file))
    (hn : p.fileName? = some n) (hname : Path.IsName sibling) (hsame : AgreeOn ∅ fs fs') :
    fs'.follow (if (p.withFileName sibling).isAbsolute then [] else fs'.workingDirectory)
      (p.withFileName sibling).pieces = if nameLimit < sibling.length then .error .nameTooLong
        else .ok (fs'.placeAt ((p.withFileName sibling).target fs.workingDirectory)) := by
  obtain ⟨names, there, hpasses, hsibling⟩ := exists_passes_of_entry h hn
  obtain ⟨hpieces, habsolute⟩ := hsibling hname
  have hpasses' := hpasses.congr fun k => (hsame.directory k).mpr
  rw [Path.target_eq_walk, hpieces, habsolute, Path.walk_append, hpasses.walk_eq, hname.walk,
    hsame.workingDirectory, hpasses'.follow_append, follow_name hpasses'.directory_there hname]

/-- Where the path of a sibling leads while the file is there, or why it leads nowhere, depends on the
directories only. -/
theorem exists_locate_withFileName (h : fs.entry p = .ok (l, .file file))
    (hname : Path.IsName sibling) : ∃ blocked : Option IoError, ∀ {fs' file'}, AgreeOn ∅ fs fs' →
      fs'.entry p = .ok (l, .file file') → fs'.locate (p.withFileName sibling) =
        blocked.elim (.ok (fs'.placeAt ((p.withFileName sibling).target fs.workingDirectory)))
          .error := by
  obtain ⟨beyond, hfollow⟩ : ∃ beyond : Option IoError, ∀ {fs' file'}, AgreeOn ∅ fs fs' →
      fs'.entry p = .ok (l, .file file') →
        fs'.follow (if (p.withFileName sibling).isAbsolute then [] else fs'.workingDirectory)
          (p.withFileName sibling).pieces =
            beyond.elim (.ok (fs'.placeAt ((p.withFileName sibling).target fs.workingDirectory)))
              .error := by
    cases hn : p.fileName? with
    | none => exact ⟨some .notADirectory, fun _ h' => follow_withFileName_of_nameless h' hn hname⟩
    | some n =>
      refine ⟨if nameLimit < sibling.length then some .nameTooLong else none, fun hsame _ => ?_⟩
      rw [follow_withFileName_of_name h hn hname hsame]
      split_ifs <;> rfl
  refine ⟨if List.elem 0 (p.withFileName sibling) then some .nulInName
    else if p.withFileName sibling = [] then some .notFound
    else if pathLimit < (p.withFileName sibling).length then some .nameTooLong else beyond, ?_⟩
  intro fs' file' hsame h'
  rw [locate, hfollow hsame h']
  split_ifs <;> rfl

/-- Why a sibling's path leads nowhere, if it does, depends on the file and the directories only. -/
theorem settled_withFileName (h : fs.entry p = .ok (l, .file file)) (hname : Path.IsName sibling)
    (hl : l ∈ part) (hpart : (p.withFileName sibling).target fs.workingDirectory ∈ part) :
    fs.Settled part (p.withFileName sibling) where
  mem hplace := location_of_locate hplace ▸ hpart
  locate_eq {fs'} hsame := by
    obtain ⟨blocked, hlocate⟩ := exists_locate_withFileName h hname
    have hleads := (leadsInto_of_entry h).mono (Set.singleton_subset_iff.mpr hl)
    have h' : fs'.entry p = .ok (l, .file file) := (hleads.settled.entry_eq hsame).trans h
    rw [hlocate (hsame.mono (Set.empty_subset _)) h', hlocate (.refl ∅ fs) h, placeAt, placeAt,
      hsame.node _ hpart]

theorem location_withFileName {place : Place} (h : fs.entry p = .ok (l, .file file))
    (hname : Path.IsName sibling) (hplace : fs.locate (p.withFileName sibling) = .ok place) :
    ∃ directory n, p.fileName? = some n ∧ l = directory ++ [n] ∧
      place.location = directory ++ [sibling] := by
  have hfile := locate_of_entry h
  cases hn : p.fileName? with
  | some n =>
    obtain ⟨hl, hk⟩ := Path.target_withFileName hn hname fs.workingDirectory
    exact ⟨(p.target fs.workingDirectory).dropLast, n, rfl, (location_of_locate hfile).trans hl,
      (location_of_locate hplace).trans hk⟩
  | none =>
    have hbeyond := (locate_eq_ok_iff.mp hplace).2.follow_eq
    rw [follow_withFileName_of_nameless h hn hname] at hbeyond
    cases hbeyond

end Masthead.FileSystem
