import Masthead.Proofs.Path

namespace Masthead.FileSystem

variable {fs fs' : FileSystem} {here l : Location} {pieces : List Name} {p : Path} {place : Place}

section Nodes

theorem lookup_cons_eq_if (l k : Location) (node : Node) (entries : List (Location × Node)) :
    List.lookup k ((l, node) :: entries) = if k = l then some node else entries.lookup k := by
  rw [List.lookup_cons]
  by_cases hk : k = l
  · simp [hk]
  · simp [beq_eq_false_iff_ne.mpr hk, hk]

theorem lookup_putEntry (l k : Location) (node : Node) (entries : List (Location × Node)) :
    (putEntry l node entries).lookup k = if k = l then some node else entries.lookup k := by
  induction entries with
  | nil => exact lookup_cons_eq_if l k node []
  | cons entry entries ih =>
    obtain ⟨m, other⟩ := entry
    unfold putEntry
    by_cases hm : m = l
    · rw [if_pos hm, lookup_cons_eq_if, lookup_cons_eq_if]
      by_cases hk : k = l
      · rw [if_pos hk, if_pos hk]
      · rw [if_neg hk, if_neg hk, if_neg (hm ▸ hk)]
    · rw [if_neg hm, lookup_cons_eq_if, lookup_cons_eq_if, ih]
      by_cases hk : k = m
      · rw [if_pos hk, if_pos hk, if_neg (hk ▸ hm)]
      · rw [if_neg hk, if_neg hk]

theorem lookup_filter_ne (l k : Location) (entries : List (Location × Node)) :
    (entries.filter (·.1 ≠ l)).lookup k = if k = l then none else entries.lookup k := by
  induction entries with
  | nil => simp
  | cons entry entries ih =>
    obtain ⟨m, other⟩ := entry
    rw [lookup_cons_eq_if]
    by_cases hm : m = l
    · rw [List.filter_cons_of_neg (by simpa using hm), ih]
      by_cases hk : k = l
      · rw [if_pos hk, if_pos hk]
      · rw [if_neg hk, if_neg hk, if_neg (hm ▸ hk)]
    · rw [List.filter_cons_of_pos (by simpa using hm), lookup_cons_eq_if, ih]
      by_cases hk : k = m
      · rw [if_pos hk, if_pos hk, if_neg (hk ▸ hm)]
      · rw [if_neg hk, if_neg hk]

@[simp] theorem nodeAt?_nil (fs : FileSystem) : fs.nodeAt? [] = some .directory := rfl

theorem nodeAt?_put (h : l ≠ []) (node : Node) (k : Location) :
    (fs.put l node).nodeAt? k = if k = l then some node else fs.nodeAt? k := by
  unfold nodeAt?
  by_cases hk : k = []
  · rw [if_pos hk, if_pos hk, if_neg (hk ▸ h.symm)]
  · rw [if_neg hk, if_neg hk]
    exact lookup_putEntry l k node fs.entries

theorem nodeAt?_erase (h : l ≠ []) (k : Location) :
    (fs.erase l).nodeAt? k = if k = l then none else fs.nodeAt? k := by
  unfold nodeAt?
  by_cases hk : k = []
  · rw [if_pos hk, if_pos hk, if_neg (hk ▸ h.symm)]
  · rw [if_neg hk, if_neg hk]
    exact lookup_filter_ne l k fs.entries

theorem filter_putEntry (l : Location) (node : Node) (entries : List (Location × Node)) :
    (putEntry l node entries).filter (·.1 ≠ l) = entries.filter (·.1 ≠ l) := by
  induction entries with
  | nil => simp [putEntry]
  | cons entry entries ih =>
    unfold putEntry
    by_cases hl : entry.1 = l
    · simp [hl]
    · rw [if_neg hl, List.filter_cons_of_pos (by simpa using hl), ih,
        List.filter_cons_of_pos (by simpa using hl)]

theorem put_put (l : Location) (node new : Node) : (fs.put l node).put l new = fs.put l new := by
  have hentries : ∀ entries : List (Location × Node),
      putEntry l new (putEntry l node entries) = putEntry l new entries := by
    intro entries
    induction entries with
    | nil => simp [putEntry]
    | cons entry entries ih =>
      by_cases hl : entry.1 = l
      · simp [putEntry, hl]
      · simp [putEntry, hl, ih]
  rw [put, put, put, hentries]

theorem erase_put_of_vacant (h : l ≠ []) (hnone : fs.nodeAt? l = none) (node : Node) :
    (fs.put l node).erase l = fs := by
  have hlookup : fs.entries.lookup l = none := by rwa [nodeAt?, if_neg h] at hnone
  have hentries : (putEntry l node fs.entries).filter (·.1 ≠ l) = fs.entries := by
    rw [filter_putEntry, List.filter_eq_self]
    intro entry hentry
    have := List.lookup_eq_none_iff.mp hlookup entry hentry
    simpa using fun heq : entry.1 = l => by simp [heq] at this
  rw [erase, put, hentries]

theorem ne_nil_of_nodeAt? (h : fs.nodeAt? l ≠ some .directory) : l ≠ [] := by
  rintro rfl
  exact h rfl

end Nodes

/-! ## Places -/

def Place.location : Place → Location
  | .existing l _ => l
  | .vacant l => l

def placeAt (fs : FileSystem) (l : Location) : Place :=
  match fs.nodeAt? l with
  | some node => .existing l node
  | none => .vacant l

@[simp] theorem location_placeAt (fs : FileSystem) (l : Location) : (fs.placeAt l).location = l := by
  unfold placeAt
  split <;> rfl

theorem placeAt_of_some {node : Node} (h : fs.nodeAt? l = some node) :
    fs.placeAt l = .existing l node := by
  rw [placeAt, h]

theorem placeAt_of_none (h : fs.nodeAt? l = none) : fs.placeAt l = .vacant l := by rw [placeAt, h]

/-- How pieces lead from a location to a place, through directories. -/
inductive Follows (fs : FileSystem) : Location → List Name → Place → Prop
  | stop {here : Location} {node : Node} (found : fs.nodeAt? here = some node) :
      Follows fs here [] (.existing here node)
  | dots {here : Location} {piece : Name} {rest : List Name} {place : Place}
      (directory : fs.nodeAt? here = some .directory)
      (dots : piece = Name.dot ∨ piece = Name.dots)
      (next : Follows fs ((Path.Component.ofPiece piece).move here) rest place) :
      Follows fs here (piece :: rest) place
  | vacant {here : Location} {piece : Name} (directory : fs.nodeAt? here = some .directory)
      (name : piece ≠ Name.dot ∧ piece ≠ Name.dots) (short : ¬ nameLimit < piece.length)
      (missing : fs.nodeAt? (here ++ [piece]) = none) :
      Follows fs here [piece] (.vacant (here ++ [piece]))
  | enter {here : Location} {piece : Name} {rest : List Name} {place : Place}
      (directory : fs.nodeAt? here = some .directory)
      (name : piece ≠ Name.dot ∧ piece ≠ Name.dots) (short : ¬ nameLimit < piece.length)
      (present : rest = [] → (fs.nodeAt? (here ++ [piece])).isSome)
      (next : Follows fs (here ++ [piece]) rest place) : Follows fs here (piece :: rest) place

theorem move_ofPiece_of_name {piece : Name} (h : piece ≠ Name.dot ∧ piece ≠ Name.dots) :
    (Path.Component.ofPiece piece).move here = here ++ [piece] := by
  rw [Path.Component.ofPiece, if_neg h.1, if_neg h.2]
  rfl

theorem follows_of_follow (h : fs.follow here pieces = .ok place) :
    Follows fs here pieces place := by
  induction pieces generalizing here with
  | nil =>
    unfold follow at h
    split at h
    · rename_i node hnode
      cases h
      exact .stop hnode
    · cases h
  | cons piece rest ih =>
    unfold follow at h
    split at h
    · cases h
    · cases h
    · rename_i hdir
      split at h
      · rename_i hdot
        exact .dots hdir (.inl hdot) (by rw [hdot]; exact ih h)
      · rename_i hdot
        split at h
        · rename_i hdots
          exact .dots hdir (.inr hdots) (by rw [hdots]; exact ih h)
        · rename_i hdots
          split at h
          · cases h
          · rename_i hshort
            split at h
            · rename_i hvacant
              obtain ⟨rfl, hnone⟩ : rest = [] ∧ fs.nodeAt? (here ++ [piece]) = none := by
                simpa using hvacant
              cases h
              exact .vacant hdir ⟨hdot, hdots⟩ hshort hnone
            · rename_i hgoes
              refine .enter hdir ⟨hdot, hdots⟩ hshort ?_ (ih h)
              intro hend
              rw [Option.isSome_iff_ne_none]
              simpa [hend] using hgoes

theorem Follows.follow_eq (h : Follows fs here pieces place) :
    fs.follow here pieces = .ok place := by
  induction h with
  | stop found => rw [follow, found]
  | dots directory dots next ih =>
    rcases dots with rfl | rfl
    · rw [follow, directory]
      exact ih
    · rw [follow, directory]
      exact ih
  | vacant directory name short missing =>
    rw [follow, directory]
    simp only [if_neg name.1, if_neg name.2, if_neg short, missing]
    rfl
  | enter directory name short present next ih =>
    rw [follow, directory]
    simp only [if_neg name.1, if_neg name.2, if_neg short, ih]
    rw [if_neg]
    intro hend
    obtain ⟨hnil, hnone⟩ : _ = [] ∧ fs.nodeAt? _ = none := by simpa using hend
    simpa [hnone] using present hnil

theorem Follows.eq_placeAt (h : Follows fs here pieces place) :
    place = fs.placeAt (Path.walk here pieces) := by
  induction h with
  | stop found => exact (placeAt_of_some found).symm
  | dots directory dots next ih => exact ih
  | vacant directory name short missing =>
    rw [Path.walk_cons, move_ofPiece_of_name name]
    exact (placeAt_of_none missing).symm
  | enter directory name short present next ih =>
    rw [Path.walk_cons, move_ofPiece_of_name name]
    exact ih

theorem Follows.congr (h : Follows fs here pieces place)
    (hdir : ∀ k, fs.nodeAt? k = some .directory → fs'.nodeAt? k = some .directory)
    (hnode : (fs.nodeAt? place.location).isSome → (fs'.nodeAt? place.location).isSome) :
    Follows fs' here pieces (fs'.placeAt place.location) := by
  induction h with
  | stop found =>
    obtain ⟨node, hfound⟩ := Option.isSome_iff_exists.mp (hnode (Option.isSome_of_eq_some found))
    rw [placeAt_of_some hfound]
    exact .stop hfound
  | dots directory dots next ih => exact .dots (hdir _ directory) dots (ih hnode)
  | @vacant here piece directory name short missing =>
    rw [Place.location]
    cases hfound : fs'.nodeAt? (here ++ [piece]) with
    | none =>
      rw [placeAt_of_none hfound]
      exact .vacant (hdir here directory) name short hfound
    | some node =>
      rw [placeAt_of_some hfound]
      exact .enter (hdir here directory) name short (by simp [hfound]) (.stop hfound)
  | @enter here piece rest place directory name short present next ih =>
    refine .enter (hdir here directory) name short ?_ (ih hnode)
    rintro rfl
    rw [next.eq_placeAt, location_placeAt] at hnode
    exact hnode (present rfl)

theorem Follows.directory {piece : Name} {rest : List Name}
    (h : Follows fs here (piece :: rest) place) : fs.nodeAt? here = some .directory := by
  cases h <;> assumption

theorem Follows.short {piece : Name} {rest : List Name} (h : Follows fs here (piece :: rest) place) :
    piece = Name.dot ∨ piece = Name.dots ∨ ¬ nameLimit < piece.length := by
  cases h with
  | dots _ dots _ => exact dots.imp_right .inl
  | vacant _ _ short _ => exact .inr (.inr short)
  | enter _ _ short _ _ => exact .inr (.inr short)

theorem Follows.tail {piece : Name} {rest : List Name}
    (h : Follows fs here (piece :: rest) place) (hne : rest ≠ []) :
    Follows fs ((Path.Component.ofPiece piece).move here) rest place := by
  cases h with
  | dots _ _ next => exact next
  | vacant => exact absurd rfl hne
  | enter _ name _ _ next => rwa [move_ofPiece_of_name name]

theorem Follows.follow_append_of_file {file : File} (h : Follows fs here pieces place)
    (hfile : fs.nodeAt? place.location = some (.file file)) (piece : Name) (rest : List Name) :
    fs.follow here (pieces ++ piece :: rest) = .error .notADirectory := by
  induction h with
  | stop found =>
    rw [Place.location] at hfile
    rw [List.nil_append, follow, hfile]
  | dots directory dots next ih =>
    rcases dots with rfl | rfl
    · rw [List.cons_append, follow, directory]
      exact ih hfile
    · rw [List.cons_append, follow, directory]
      exact ih hfile
  | vacant directory name short missing => simp [Place.location, missing] at hfile
  | enter directory name short present next ih =>
    rw [List.cons_append, follow, directory]
    simp only [if_neg name.1, if_neg name.2, if_neg short, ih hfile]
    simp

theorem Follows.directory_of_dot {init : List Name} (h : Follows fs here (init ++ [Name.dot]) place) :
    fs.nodeAt? place.location = some .directory := by
  induction init generalizing here with
  | nil =>
    have hdir := h.directory
    cases h with
    | dots _ _ next =>
      cases next
      exact hdir
    | vacant _ name => exact absurd rfl name.1
    | enter _ name => exact absurd rfl name.1
  | cons piece init ih => exact ih (h.tail (by simp))

/-- Pieces that lead through directories to a directory. -/
inductive Passes (fs : FileSystem) : Location → List Name → Location → Prop
  | stop {here : Location} (directory : fs.nodeAt? here = some .directory) : Passes fs here [] here
  | go {here there : Location} {piece : Name} {rest : List Name}
      (directory : fs.nodeAt? here = some .directory)
      (short : piece = Name.dot ∨ piece = Name.dots ∨ ¬ nameLimit < piece.length)
      (next : Passes fs ((Path.Component.ofPiece piece).move here) rest there) :
      Passes fs here (piece :: rest) there

section Passes

variable {there : Location} {name : Name}

theorem Passes.directory (h : Passes fs here pieces there) : fs.nodeAt? here = some .directory := by
  cases h <;> assumption

theorem Passes.directory_there (h : Passes fs here pieces there) :
    fs.nodeAt? there = some .directory := by
  induction h with
  | stop directory => exact directory
  | go directory short next ih => exact ih

theorem Passes.congr (h : Passes fs here pieces there)
    (hdir : ∀ k, fs.nodeAt? k = some .directory → fs'.nodeAt? k = some .directory) :
    Passes fs' here pieces there := by
  induction h with
  | stop directory => exact .stop (hdir _ directory)
  | go directory short next ih => exact .go (hdir _ directory) short ih

theorem Follows.passes {init : List Name} {last : Name} (h : Follows fs here (init ++ [last]) place) :
    ∃ there, Passes fs here init there := by
  induction init generalizing here with
  | nil => exact ⟨here, .stop h.directory⟩
  | cons piece init ih =>
    obtain ⟨there, hthere⟩ := ih (h.tail (by simp))
    exact ⟨there, .go h.directory h.short hthere⟩

theorem Passes.walk_eq (h : Passes fs here pieces there) : Path.walk here pieces = there := by
  induction h with
  | stop directory => rfl
  | go directory short next ih => exact ih

theorem Passes.follow_append (h : Passes fs here pieces there) (piece : Name) (rest : List Name) :
    fs.follow here (pieces ++ piece :: rest) = fs.follow there (piece :: rest) := by
  induction h with
  | stop directory => rfl
  | @go here there first others directory short next ih =>
    rw [List.cons_append, follow, directory]
    by_cases hdot : first = Name.dot
    · subst hdot
      exact ih
    · by_cases hdots : first = Name.dots
      · subst hdots
        exact ih
      · have hshort := (short.resolve_left hdot).resolve_left hdots
        rw [move_ofPiece_of_name ⟨hdot, hdots⟩] at ih
        simp only [if_neg hdot, if_neg hdots, if_neg hshort, ih]
        simp

theorem passes_filter_iff (hdir : fs.nodeAt? here = some .directory) :
    Passes fs here (pieces.filter (· ≠ Name.dot)) there ↔ Passes fs here pieces there := by
  induction pieces generalizing here with
  | nil => rfl
  | cons piece rest ih =>
    by_cases hdot : piece = Name.dot
    · rw [List.filter_cons_of_neg (by simpa using hdot), ih hdir]
      subst hdot
      refine ⟨fun h => .go hdir (.inl rfl) h, fun h => ?_⟩
      cases h with
      | go _ _ next => exact next
    · rw [List.filter_cons_of_pos (by simpa using hdot)]
      constructor
      · intro h
        cases h with
        | go _ short next => exact .go hdir short ((ih next.directory).mp next)
      · intro h
        cases h with
        | go _ short next => exact .go hdir short ((ih next.directory).mpr next)

theorem follow_name (hdir : fs.nodeAt? here = some .directory) (hname : Path.IsName name) :
    fs.follow here [name] = if nameLimit < name.length then .error .nameTooLong
      else .ok (fs.placeAt (here ++ [name])) := by
  rw [follow, hdir]
  simp only [if_neg hname.ne_here, if_neg hname.ne_up]
  split
  · rfl
  · cases hnode : fs.nodeAt? (here ++ [name]) with
    | none => simp [placeAt_of_none hnode]
    | some node => simp [follow, hnode, placeAt_of_some hnode]

end Passes

/-! ## Paths -/

theorem locate_eq_ok_iff : fs.locate p = .ok place ↔
    (0 ∉ p ∧ p ≠ [] ∧ ¬ pathLimit < p.length) ∧
      Follows fs (if p.isAbsolute then [] else fs.workingDirectory) p.pieces place := by
  unfold locate
  constructor
  · intro h
    split at h
    · cases h
    · rename_i hnul
      split at h
      · cases h
      · rename_i hne
        split at h
        · cases h
        · rename_i hshort
          exact ⟨⟨by simpa using hnul, hne, hshort⟩, follows_of_follow h⟩
  · rintro ⟨⟨hnul, hne, hshort⟩, h⟩
    rw [if_neg (by simpa using hnul), if_neg hne, if_neg hshort, h.follow_eq]

theorem locate_eq_placeAt (h : fs.locate p = .ok place) :
    place = fs.placeAt (p.target fs.workingDirectory) := by
  rw [Path.target_eq_walk]
  exact (locate_eq_ok_iff.mp h).2.eq_placeAt

theorem location_of_locate (h : fs.locate p = .ok place) :
    place.location = p.target fs.workingDirectory := by
  rw [locate_eq_placeAt h, location_placeAt]

theorem locate_congr (h : fs.locate p = .ok place)
    (hwd : fs'.workingDirectory = fs.workingDirectory)
    (hdir : ∀ k, fs.nodeAt? k = some .directory → fs'.nodeAt? k = some .directory)
    (hnode : (fs.nodeAt? place.location).isSome → (fs'.nodeAt? place.location).isSome) :
    fs'.locate p = .ok (fs'.placeAt place.location) := by
  obtain ⟨hplain, hfollows⟩ := locate_eq_ok_iff.mp h
  rw [locate_eq_ok_iff, hwd]
  exact ⟨hplain, hfollows.congr hdir hnode⟩

end Masthead.FileSystem
