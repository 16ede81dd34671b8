import Masthead.FileSystem

/-!
# The locations that paths spell

A path leads to one location, whatever the file system holds: every name leads one step down and
two dots lead one step up. The path of another name in the same directory leads to a sibling.
-/
namespace Masthead

namespace Text

variable {α : Type} {p : α → Bool}

theorem splitAll_eq_splitOnP (p : α → Bool) (t : List α) : splitAll p t = t.splitOnP p := by
  induction t with
  | nil => rfl
  | cons c t ih =>
    rw [splitAll, ih, List.splitOnP_cons_eq_if_modifyHead]
    split
    · rfl
    · split
      · rename_i hnil
        exact absurd hnil (List.splitOnP_ne_nil p t)
      · rename_i hcons
        rw [hcons, List.modifyHead_cons]

theorem splitAll_ne_nil (p : α → Bool) (t : List α) : splitAll p t ≠ [] := by
  rw [splitAll_eq_splitOnP]
  exact List.splitOnP_ne_nil p t

theorem unbroken_of_mem_splitAll {run t : List α} (h : run ∈ splitAll p t) :
    ∀ c ∈ run, p c = false := by
  induction t generalizing run with
  | nil => simp_all [splitAll]
  | cons d t ih =>
    simp only [splitAll] at h
    split at h
    · rcases List.mem_cons.mp h with rfl | h
      · simp
      · exact ih h
    · rename_i hd
      have hplain : p d = false := by simpa using hd
      split at h
      · rw [List.mem_singleton] at h
        simp [h, hplain]
      · rename_i first runs hs
        rw [hs] at ih
        rcases List.mem_cons.mp h with rfl | h
        · exact List.forall_mem_cons.mpr ⟨hplain, ih List.mem_cons_self⟩
        · exact ih (List.mem_cons_of_mem first h)

theorem join_cons_cons (separator s t : List α) (ts : List (List α)) :
    join separator (s :: t :: ts) = s ++ separator ++ join separator (t :: ts) := by
  simp [join]

end Text

namespace Path

variable {p name : Path}

/-- A name that can stand between slashes and is no dots. -/
structure IsName (name : Name) : Prop where
  ne_nil : name ≠ []
  slashless : slash ∉ name
  ne_here : name ≠ Name.dot
  ne_up : name ≠ Name.dots

/-! ## Pieces -/

@[simp] theorem pieces_nil : pieces [] = [] := rfl

theorem pieces_append_slash (p q : Path) : pieces (p ++ slash :: q) = pieces p ++ pieces q := by
  simp only [pieces, Text.splitAll_eq_splitOnP]
  rw [List.splitOnP_append_cons _ _ (by simp), List.filter_append]

theorem pieces_of_slashless (hslash : slash ∉ name) : pieces name = [name].filter (· ≠ []) := by
  rw [pieces, Text.splitAll_eq_splitOnP, List.splitOnP_eq_singleton]
  intro c hc
  simp only [beq_eq_false_iff_ne, ne_eq]
  rintro rfl
  exact hslash hc

theorem IsName.pieces (h : IsName name) : Path.pieces name = [name] := by
  rw [pieces_of_slashless h.slashless]
  simp [h.ne_nil]

theorem of_mem_pieces {piece : Name} (h : piece ∈ p.pieces) : piece ≠ [] ∧ slash ∉ piece := by
  obtain ⟨hmem, hne⟩ := List.mem_filter.mp h
  have hrun := Text.unbroken_of_mem_splitAll hmem
  exact ⟨by simpa using hne, fun hslash => by simpa using hrun slash hslash⟩

theorem pieces_textJoin {names : List Name} (h : ∀ name ∈ names, name ≠ [] ∧ slash ∉ name) :
    pieces (Text.join [slash] names) = names := by
  induction names with
  | nil => rfl
  | cons name names ih =>
    have hname := h name List.mem_cons_self
    have hpieces : pieces name = [name] := by
      rw [pieces_of_slashless hname.2]
      simp [hname.1]
    cases names with
    | nil => simpa [Text.join] using hpieces
    | cons other names =>
      have := ih fun name hmem => h name (List.mem_cons_of_mem _ hmem)
      rw [Text.join_cons_cons, List.append_assoc]
      rw [show [slash] ++ Text.join [slash] (other :: names) =
        slash :: Text.join [slash] (other :: names) from rfl, pieces_append_slash, this, hpieces]
      rfl

theorem isAbsolute_of_slashless (h : slash ∉ name) : isAbsolute name = false := by
  cases name with
  | nil => rfl
  | cons c name =>
    have : c ≠ slash := by
      rintro rfl
      exact h List.mem_cons_self
    simpa [isAbsolute] using this

theorem pieces_join (h : name.isAbsolute = false) (p : Path) :
    pieces (join p name) = pieces p ++ pieces name := by
  unfold join
  split
  · rename_i hor
    have hnil : p = [] := by simpa [h] using hor
    rw [hnil, pieces_nil, List.nil_append]
  · split
    · rename_i hslash
      obtain ⟨p, rfl⟩ := List.getLast?_eq_some_iff.mp (by simpa [endsWithSlash] using hslash)
      rw [List.append_assoc, pieces_append_slash, List.singleton_append, pieces_append_slash,
        pieces_nil, List.append_nil]
    · exact pieces_append_slash p name

theorem endsWithSlash_join (hne : name ≠ []) (p : Path) :
    endsWithSlash (join p name) = endsWithSlash name := by
  obtain ⟨init, c, rfl⟩ := (List.eq_nil_or_concat name).resolve_left hne
  have hlast : ∀ front : Path, endsWithSlash (front ++ (init ++ [c])) = (c == slash) := by
    intro front
    rw [endsWithSlash, ← List.append_assoc, List.getLast?_concat]
    rfl
  rw [List.concat_eq_append, ← List.nil_append (init ++ [c]), hlast, List.nil_append, join]
  split
  · exact hlast []
  · split
    · exact hlast p
    · exact List.append_cons p slash _ ▸ hlast (p ++ [slash])

theorem isAbsolute_join (h : name.isAbsolute = false) (p : Path) :
    isAbsolute (join p name) = isAbsolute p := by
  cases p with
  | nil => rw [join, if_pos (by simp), h]; rfl
  | cons c p =>
    unfold join
    split
    · rename_i hor
      simp [h] at hor
    · split <;> rfl

/-! ## Components -/

@[simp] theorem bytes_ofPiece (piece : Name) : (Component.ofPiece piece).bytes = piece := by
  unfold Component.ofPiece
  split
  · rename_i h
    exact h.symm
  · split
    · rename_i h
      exact h.symm
    · rfl

theorem ofPiece_eq_here_iff {piece : Name} :
    Component.ofPiece piece = .here ↔ piece = Name.dot := by
  unfold Component.ofPiece
  split
  · simp_all
  · split <;> simp_all

theorem filter_components (p : Path) : p.components.filter (· ≠ .here) =
    (if p.isAbsolute then [.root] else []) ++ (p.pieces.map Component.ofPiece).filter (· ≠ .here) := by
  unfold components
  cases p.isAbsolute with
  | true => simp
  | false =>
    simp only [Bool.false_eq_true, if_false, List.nil_append]
    split
    · rename_i rest heq
      simp [heq]
    · simp

def Component.move (here : Location) : Component → Location
  | .root => []
  | .here => here
  | .up => here.dropLast
  | .name n => here ++ [n]

/-- The location that a path spells. -/
def target (workingDirectory : Location) (p : Path) : Location :=
  p.components.foldl Component.move workingDirectory

def walk (here : Location) (pieces : List Name) : Location :=
  pieces.foldl (fun here piece => (Component.ofPiece piece).move here) here

theorem walk_append (here : Location) (first last : List Name) :
    walk here (first ++ last) = walk (walk here first) last := List.foldl_append

theorem walk_cons (here : Location) (piece : Name) (pieces : List Name) :
    walk here (piece :: pieces) = walk ((Component.ofPiece piece).move here) pieces := rfl

theorem IsName.walk (h : IsName name) (here : Location) : walk here [name] = here ++ [name] := by
  rw [walk_cons, Component.ofPiece, if_neg h.ne_here, if_neg h.ne_up]
  rfl

theorem foldl_move_filter (cs : List Component) (here : Location) :
    (cs.filter (· ≠ .here)).foldl Component.move here = cs.foldl Component.move here := by
  induction cs generalizing here with
  | nil => rfl
  | cons c cs ih =>
    by_cases hc : c = .here
    · rw [List.filter_cons_of_neg (by simpa using hc), hc, List.foldl_cons]
      exact ih here
    · rw [List.filter_cons_of_pos (by simpa using hc), List.foldl_cons, List.foldl_cons]
      exact ih (Component.move here c)

theorem foldl_move_map_ofPiece (pieces : List Name) (here : Location) :
    (pieces.map Component.ofPiece).foldl Component.move here = walk here pieces := by
  rw [List.foldl_map]
  rfl

/-- The components of a path are the ones of some of its pieces, behind the root if it has one. -/
theorem exists_components (p : Path) :
    ∃ names : List Name, (∀ name ∈ names, name ∈ p.pieces) ∧ p.components =
      (if p.isAbsolute then [.root] else []) ++ names.map Component.ofPiece := by
  have hfilter : ∀ pieces : List Name, (pieces.map Component.ofPiece).filter (· ≠ .here) =
      (pieces.filter (Component.ofPiece · ≠ .here)).map Component.ofPiece := by
    intro pieces
    rw [List.filter_map]
    rfl
  unfold components
  cases p.isAbsolute with
  | true =>
    exact ⟨_, fun name hname => (List.mem_filter.mp hname).1, by simp only [hfilter]; rfl⟩
  | false =>
    cases hpieces : p.pieces with
    | nil => exact ⟨[], by simp, rfl⟩
    | cons piece pieces =>
      simp only [List.map_cons, Bool.false_eq_true, if_false, List.nil_append]
      split
      · rename_i rest heq
        obtain ⟨hpiece, rfl⟩ := List.cons.inj heq
        refine ⟨piece :: pieces.filter (Component.ofPiece · ≠ .here), ?_, ?_⟩
        · intro name hname
          rcases List.mem_cons.mp hname with rfl | hname
          · exact List.mem_cons_self
          · exact List.mem_cons_of_mem _ (List.mem_filter.mp hname).1
        · rw [List.map_cons, hpiece, hfilter]
      · rw [← List.map_cons, hfilter]
        exact ⟨_, fun name hname => (List.mem_filter.mp hname).1, rfl⟩

theorem target_eq_walk (workingDirectory : Location) (p : Path) :
    target workingDirectory p = walk (if p.isAbsolute then [] else workingDirectory) p.pieces := by
  rw [target, components, ← foldl_move_map_ofPiece]
  cases p.isAbsolute with
  | true =>
    rw [if_pos rfl, if_pos rfl, List.foldl_cons]
    exact foldl_move_filter _ _
  | false =>
    rw [if_neg Bool.false_ne_true, if_neg Bool.false_ne_true]
    split
    · rename_i rest heq
      rw [heq, List.foldl_cons, List.foldl_cons]
      exact foldl_move_filter rest workingDirectory
    · exact foldl_move_filter _ _

/-! ## Siblings -/

theorem isAbsolute_textJoin {names : List Name} (h : ∀ name ∈ names, name ≠ [] ∧ slash ∉ name) :
    isAbsolute (Text.join [slash] names) = false := by
  cases names with
  | nil => rfl
  | cons name names =>
    obtain ⟨hne, hslash⟩ := h name List.mem_cons_self
    obtain ⟨c, name, rfl⟩ := List.exists_cons_of_ne_nil hne
    have hc := isAbsolute_of_slashless hslash
    cases names with
    | nil => simpa [Text.join, isAbsolute] using hc
    | cons => simpa [Text.join_cons_cons, isAbsolute] using hc

theorem ofComponents_names (absolute : Bool) (names : List Name) :
    ofComponents ((if absolute then [.root] else []) ++ names.map Component.ofPiece) =
      (if absolute then [slash] else []) ++ Text.join [slash] names := by
  have htexts : (names.map Component.ofPiece).map Component.bytes = names := by
    rw [List.map_map, show Component.bytes ∘ Component.ofPiece = id from funext bytes_ofPiece,
      List.map_id]
  unfold ofComponents
  cases absolute with
  | false =>
    have hroot : names.map Component.ofPiece ≠ [.root] := by
      intro hroot
      obtain ⟨piece, -, hpiece⟩ := List.mem_map.mp (hroot ▸ List.mem_singleton_self _)
      unfold Component.ofPiece at hpiece
      split at hpiece
      · cases hpiece
      · split at hpiece <;> cases hpiece
    simp only [Bool.false_eq_true, if_false, List.nil_append, if_neg hroot, htexts]
  | true =>
    cases names with
    | nil => rfl
    | cons name names =>
      have hne : [Component.root] ++ (name :: names).map Component.ofPiece ≠ [.root] := by simp
      simp only [if_true]
      rw [if_neg hne, List.map_append, htexts]
      exact Text.join_cons_cons [slash] [] name names

theorem exists_names_of_fileName? {n : Name} (h : p.fileName? = some n) :
    ∃ names : List Name, (∀ name ∈ names, name ∈ p.pieces) ∧ n ∈ p.pieces ∧ p.components =
      (if p.isAbsolute then [.root] else []) ++ names.map Component.ofPiece ++ [.name n] := by
  obtain ⟨names, hmem, hcomponents⟩ := exists_components p
  have hlast : p.components.getLast? = some (.name n) := by
    unfold fileName? at h
    split at h
    · rename_i m heq
      rw [heq, Option.some.inj h]
    · cases h
  rcases List.eq_nil_or_concat names with rfl | ⟨init, last, rfl⟩
  · rw [hcomponents] at hlast
    split at hlast <;> simp at hlast
  · have hpiece : Component.ofPiece last = .name n := by
      simpa [hcomponents] using hlast
    obtain rfl : last = n := by
      rw [← bytes_ofPiece last, hpiece]
      rfl
    refine ⟨init, fun name hname => hmem name (by simp [hname]), hmem last (by simp), ?_⟩
    rw [hcomponents, List.concat_eq_append, List.map_append, List.map_singleton, hpiece,
      List.append_assoc]

theorem getLast?_components {init : List Name} {last : Name} (h : p.pieces = init ++ [last])
    (hdot : last ≠ Name.dot) : p.components.getLast? = some (Component.ofPiece last) := by
  have hlast : Component.ofPiece last ≠ .here := by
    rw [Component.ofPiece, if_neg hdot]
    split <;> simp
  have hfilter : ∀ cs : List Component, (cs ++ [Component.ofPiece last]).filter (· ≠ .here) =
      cs.filter (· ≠ .here) ++ [Component.ofPiece last] := by
    intro cs
    rw [List.filter_append, List.filter_cons_of_pos (by simpa using hlast), List.filter_nil]
  simp only [components, h, List.map_append, List.map_singleton]
  cases p.isAbsolute with
  | true => rw [if_pos rfl, hfilter, ← List.cons_append, List.getLast?_concat]
  | false =>
    rw [if_neg Bool.false_ne_true]
    split
    · rename_i rest heq
      cases init with
      | nil => exact absurd (List.cons.inj heq).1 hlast
      | cons piece init =>
        have hrest : init.map Component.ofPiece ++ [Component.ofPiece last] = rest :=
          (List.cons.inj heq).2
        rw [← hrest, hfilter, ← List.cons_append, List.getLast?_concat]
    · rw [hfilter, List.getLast?_concat]

theorem eq_of_fileName? {n : Name} {init : List Name} {last : Name} (h : p.fileName? = some n)
    (hpieces : p.pieces = init ++ [last]) (hdot : last ≠ Name.dot) :
    last = n ∧ last ≠ Name.dots := by
  unfold fileName? at h
  rw [getLast?_components hpieces hdot, Component.ofPiece, if_neg hdot] at h
  by_cases hdots : last = Name.dots
  · rw [if_pos hdots] at h
    cases h
  · rw [if_neg hdots] at h
    exact ⟨Option.some.inj h, hdots⟩

theorem foldl_move_root (absolute : Bool) (workingDirectory : Location) :
    (if absolute then [Component.root] else []).foldl Component.move workingDirectory =
      if absolute then [] else workingDirectory := by
  cases absolute <;> rfl

/-- The path of another name in the same directory has the same pieces before the name, except for
dots. -/
theorem exists_names_withFileName {n : Name} (h : p.fileName? = some n) :
    ∃ names : List Name,
      p.components =
        (if p.isAbsolute then [.root] else []) ++ names.map Component.ofPiece ++ [.name n] ∧
      ∀ {sibling}, IsName sibling → (p.withFileName sibling).pieces = names ++ [sibling] ∧
        (p.withFileName sibling).isAbsolute = p.isAbsolute ∧
        (p.withFileName sibling).endsWithSlash = endsWithSlash sibling := by
  obtain ⟨names, hmem, -, hcomponents⟩ := exists_names_of_fileName? h
  have hplain : ∀ name ∈ names, name ≠ [] ∧ slash ∉ name := fun name hname =>
    of_mem_pieces (hmem name hname)
  have hparent : ofComponents p.components.dropLast =
      (if p.isAbsolute then [slash] else []) ++ Text.join [slash] names := by
    rw [hcomponents, List.dropLast_concat, ofComponents_names]
  have hpieces : pieces (ofComponents p.components.dropLast) = names := by
    rw [hparent]
    cases p.isAbsolute with
    | false => exact pieces_textJoin hplain
    | true => exact (pieces_append_slash [] _).trans (pieces_textJoin hplain)
  have habsolute : isAbsolute (ofComponents p.components.dropLast) = p.isAbsolute := by
    rw [hparent]
    cases p.isAbsolute with
    | false => exact isAbsolute_textJoin hplain
    | true => rfl
  refine ⟨names, hcomponents, fun {sibling} hname => ?_⟩
  have hrelative := isAbsolute_of_slashless hname.slashless
  rw [withFileName, h]
  dsimp only
  rw [pieces_join hrelative, isAbsolute_join hrelative, endsWithSlash_join hname.ne_nil, hpieces,
    habsolute, hname.pieces]
  exact ⟨rfl, rfl, rfl⟩

theorem target_withFileName {n sibling : Name} (h : p.fileName? = some n) (hname : IsName sibling)
    (workingDirectory : Location) :
    target workingDirectory p = (target workingDirectory p).dropLast ++ [n] ∧
      target workingDirectory (p.withFileName sibling) =
        (target workingDirectory p).dropLast ++ [sibling] := by
  obtain ⟨names, hcomponents, hsibling⟩ := exists_names_withFileName h
  obtain ⟨hpieces, habsolute, -⟩ := hsibling hname
  obtain ⟨dir, hdir⟩ : ∃ dir : Location,
      dir = walk (if p.isAbsolute then [] else workingDirectory) names := ⟨_, rfl⟩
  have htarget : target workingDirectory p = dir ++ [n] := by
    rw [target, hcomponents, List.foldl_append, List.foldl_append, foldl_move_root,
      foldl_move_map_ofPiece, hdir]
    rfl
  rw [htarget, List.dropLast_concat]
  refine ⟨rfl, ?_⟩
  rw [target_eq_walk, habsolute, hpieces, walk_append, ← hdir, hname.walk]

/-! ## Ascending lists -/

/-- Every path comes before those behind it. -/
def Ascending (paths : List Path) : Prop := paths.Pairwise fun p q => order p q = .lt

theorem order_trans {p q r : Path} (h : order p q = .lt) (h' : order q r = .lt) :
    order p r = .lt := by
  unfold order at *
  exact Std.TransCmp.lt_trans h h'

theorem order_of_gt {p q : Path} (h : order p q = .gt) : order q p = .lt := by
  unfold order at *
  exact Std.OrientedCmp.gt_iff_lt.mp h

theorem mem_insertOrdered {p q : Path} {paths : List Path} (h : q ∈ insertOrdered p paths) :
    q = p ∨ q ∈ paths := by
  induction paths with
  | nil => simpa [insertOrdered] using h
  | cons r rs ih =>
    rw [insertOrdered] at h
    split at h
    · exact List.mem_cons.mp h
    · exact .inr h
    · rcases List.mem_cons.mp h with rfl | h
      · exact .inr List.mem_cons_self
      · exact (ih h).imp_right (List.mem_cons_of_mem r)

theorem Ascending.insertOrdered {paths : List Path} (h : Ascending paths) (p : Path) :
    Ascending (insertOrdered p paths) := by
  induction paths with
  | nil => exact List.pairwise_singleton _ p
  | cons q qs ih =>
    obtain ⟨hq, hqs⟩ := List.pairwise_cons.mp h
    rw [Path.insertOrdered]
    split
    · rename_i hlt
      refine List.pairwise_cons.mpr ⟨fun r hr => ?_, h⟩
      rcases List.mem_cons.mp hr with rfl | hr
      · exact hlt
      · exact order_trans hlt (hq r hr)
    · exact h
    · rename_i hgt
      refine List.pairwise_cons.mpr ⟨fun r hr => ?_, ih hqs⟩
      rcases mem_insertOrdered hr with rfl | hr
      · exact order_of_gt hgt
      · exact hq r hr

theorem Ascending.nodup_components {paths : List Path} (h : Ascending paths) :
    (paths.map components).Nodup := by
  refine List.pairwise_map.mpr (h.imp fun {p q} hlt heq => ?_)
  have hsame : order p q = .eq := by
    rw [order, heq]
    exact Std.ReflCmp.compare_self
  rw [hsame] at hlt
  cases hlt

end Path
end Masthead
