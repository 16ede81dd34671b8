import Mathlib.Data.List.Basic
import Masthead.Proofs.Path

namespace Masthead.Path

variable {p q : Path} {name : Name} {names names' : List Name}

/-! ## Joined names -/

theorem pieces_ne_nil (hne : p ≠ []) (habsolute : p.isAbsolute = false) : p.pieces ≠ [] := by
  obtain ⟨c, p, rfl⟩ := List.exists_cons_of_ne_nil hne
  have hc : (c == slash) = false := by simpa [isAbsolute] using habsolute
  have hrun : ∃ run runs, Text.splitAll (· == slash) (c :: p) = (c :: run) :: runs := by
    rw [Text.splitAll, hc, if_neg Bool.false_ne_true]
    split
    · exact ⟨_, _, rfl⟩
    · exact ⟨_, _, rfl⟩
  obtain ⟨run, runs, hsplit⟩ := hrun
  rw [pieces, hsplit, List.filter_cons_of_pos (by simp)]
  exact List.cons_ne_nil _ _

theorem IsName.ofPiece_eq (h : IsName name) : Component.ofPiece name = .name name := by
  rw [Component.ofPiece, if_neg h.ne_here, if_neg h.ne_up]

theorem join_ne_nil (h : IsName name) (p : Path) : join p name ≠ [] := by
  unfold join
  split
  · exact h.ne_nil
  · split <;> simp [h.ne_nil]

theorem components_of_absolute (h : p.isAbsolute = true) :
    p.components = .root :: (p.pieces.map Component.ofPiece).filter (· ≠ .here) := by
  simp only [components, h, if_true]

theorem components_of_relative (h : p.isAbsolute = false) {piece : Name} {pieces : List Name}
    (hpieces : p.pieces = piece :: pieces) : p.components =
      Component.ofPiece piece :: (pieces.map Component.ofPiece).filter (· ≠ .here) := by
  simp only [components, h, hpieces, List.map_cons, Bool.false_eq_true, if_false]
  split
  · rename_i heq
    obtain ⟨hpiece, rfl⟩ := List.cons.inj heq
    rw [hpiece]
  · rename_i hother
    have hpiece : Component.ofPiece piece ≠ .here := fun hhere => hother _ (by rw [hhere])
    exact List.filter_cons_of_pos (by simpa using hpiece)

theorem components_join (h : IsName name) (hne : p ≠ []) :
    (join p name).components = p.components ++ [.name name] := by
  have hrelative := isAbsolute_of_slashless h.slashless
  have hpieces : (join p name).pieces = p.pieces ++ [name] := by rw [pieces_join hrelative, h.pieces]
  have hlast : ([name].map Component.ofPiece).filter (· ≠ .here) = [.name name] := by
    rw [List.map_singleton, h.ofPiece_eq]
    rfl
  cases habsolute : p.isAbsolute with
  | true =>
    rw [components_of_absolute (by rw [isAbsolute_join hrelative, habsolute]), hpieces,
      components_of_absolute habsolute, List.map_append, List.filter_append, hlast, List.cons_append]
  | false =>
    obtain ⟨piece, pieces, hp⟩ := List.exists_cons_of_ne_nil (pieces_ne_nil hne habsolute)
    rw [hp, List.cons_append] at hpieces
    rw [components_of_relative (by rw [isAbsolute_join hrelative, habsolute]) hpieces,
      components_of_relative habsolute hp, List.map_append, List.filter_append, hlast,
      List.cons_append]

theorem components_foldl_join (h : ∀ name ∈ names, IsName name) (hne : p ≠ []) :
    (names.foldl join p).components = p.components ++ names.map Component.name := by
  induction names generalizing p with
  | nil => simp
  | cons name names ih =>
    have hname := h name (by simp)
    rw [List.foldl_cons, ih (fun other hother => h other (List.mem_cons_of_mem _ hother))
      (join_ne_nil hname p), components_join hname hne, List.append_assoc]
    rfl

theorem foldl_join_inj (h : ∀ name ∈ names, IsName name) (h' : ∀ name ∈ names', IsName name)
    (hne : p ≠ []) (heq : (names.foldl join p).components = (names'.foldl join p).components) :
    names = names' := by
  rw [components_foldl_join h hne, components_foldl_join h' hne] at heq
  exact List.map_injective_iff.mpr (fun _ _ => Component.name.inj) (List.append_cancel_left heq)

theorem fileName?_foldl_join (h : ∀ other ∈ names ++ [name], IsName other) (hne : p ≠ []) :
    ((names ++ [name]).foldl join p).fileName? = some name := by
  have hcomponents := components_foldl_join h hne
  rw [fileName?, hcomponents, List.map_append, ← List.append_assoc, List.map_singleton,
    List.getLast?_concat]

/-! ## The first of equal paths -/

variable {files found : List Path}

theorem key_injective : Function.Injective Component.key := by
  intro c d h
  have hnat : Function.Injective UInt8.toNat := fun a b hab => UInt8.toNat_inj.mp hab
  cases c <;> cases d <;> simp_all [Component.key, List.map_inj_right hnat]

theorem order_eq_iff : order p q = .eq ↔ p.components = q.components := by
  rw [order, Std.LawfulEqCmp.compare_eq_iff_eq]
  exact (List.map_injective_iff.mpr key_injective).eq_iff

theorem components_ne_of_order {o : Ordering} (h : order p q = o) (ho : o ≠ .eq) :
    q.components ≠ p.components := by
  intro heq
  exact ho (h.symm.trans (order_eq_iff.mpr heq.symm))

theorem mem_insertOrdered_iff (h : Ascending files) : q ∈ insertOrdered p files ↔
    q ∈ files ∨ q = p ∧ ∀ file ∈ files, file.components ≠ p.components := by
  induction files with
  | nil => simp [insertOrdered]
  | cons r rs ih =>
    obtain ⟨hr, hrs⟩ := List.pairwise_cons.mp h
    rw [insertOrdered]
    cases horder : order p r with
    | lt =>
      have hall : ∀ file ∈ r :: rs, file.components ≠ p.components :=
        List.forall_mem_cons.mpr ⟨components_ne_of_order horder (by decide), fun file hfile =>
          components_ne_of_order (order_trans horder (hr file hfile)) (by decide)⟩
      rw [List.mem_cons, and_iff_left hall, or_comm]
    | eq =>
      have hsame := order_eq_iff.mp horder
      exact (or_iff_left fun hp => hp.2 r (by simp) hsame.symm).symm
    | gt =>
      have hne := components_ne_of_order horder (by decide)
      rw [List.mem_cons, ih hrs, List.mem_cons, List.forall_mem_cons, or_assoc, and_iff_right hne]

theorem forall_mem_insertOrdered {cs : List Component} :
    (∀ file ∈ insertOrdered p files, file.components ≠ cs) ↔
      p.components ≠ cs ∧ ∀ file ∈ files, file.components ≠ cs := by
  induction files with
  | nil => simp [insertOrdered]
  | cons r rs ih =>
    rw [insertOrdered]
    cases horder : order p r with
    | lt => exact List.forall_mem_cons
    | eq =>
      rw [order_eq_iff.mp horder, List.forall_mem_cons]
      tauto
    | gt =>
      rw [List.forall_mem_cons, ih, List.forall_mem_cons]
      tauto

/-- The path is in the list, and none before it has its components. -/
def First (files : List Path) (q : Path) : Prop :=
  ∃ before after, files = before ++ q :: after ∧
    ∀ file ∈ before, file.components ≠ q.components

theorem not_first_nil : ¬ First [] q := by
  rintro ⟨before, after, heq, -⟩
  simp at heq

theorem first_cons : First (p :: files) q ↔
    q = p ∨ First files q ∧ p.components ≠ q.components := by
  constructor
  · rintro ⟨before, after, heq, hbefore⟩
    cases before with
    | nil => exact .inl (List.cons.inj heq).1.symm
    | cons r before =>
      obtain ⟨rfl, rfl⟩ := List.cons.inj heq
      obtain ⟨hp, hbefore⟩ := List.forall_mem_cons.mp hbefore
      exact .inr ⟨⟨before, after, rfl, hbefore⟩, hp⟩
  · rintro (rfl | ⟨⟨before, after, rfl, hbefore⟩, hp⟩)
    · exact ⟨[], files, rfl, by simp⟩
    · exact ⟨p :: before, after, rfl, List.forall_mem_cons.mpr ⟨hp, hbefore⟩⟩

theorem first_append : First (found ++ files) q ↔
    First found q ∨ First files q ∧ ∀ file ∈ found, file.components ≠ q.components := by
  induction found with
  | nil => simp [not_first_nil]
  | cons p found ih =>
    rw [List.cons_append, first_cons, first_cons, ih, List.forall_mem_cons]
    tauto

theorem exists_first (h : q ∈ files) : ∃ file, First files file ∧ file.components = q.components := by
  induction files with
  | nil => cases h
  | cons p files ih =>
    by_cases hp : p.components = q.components
    · exact ⟨p, first_cons.mpr (.inl rfl), hp⟩
    · have hne : q ≠ p := fun heq => hp (heq ▸ rfl)
      obtain ⟨file, hfile, hsame⟩ := ih ((List.mem_cons.mp h).resolve_left hne)
      exact ⟨file, first_cons.mpr (.inr ⟨hfile, hsame ▸ hp⟩), hsame⟩

theorem first_iff_mem (h : (files.map components).Nodup) : First files q ↔ q ∈ files := by
  constructor
  · rintro ⟨before, after, rfl, -⟩
    simp
  · intro hq
    obtain ⟨before, after, rfl⟩ := List.append_of_mem hq
    refine ⟨before, after, rfl, fun file hfile heq => ?_⟩
    rw [List.map_append, List.map_cons, List.nodup_append] at h
    exact h.2.2 _ (List.mem_map_of_mem hfile) _ (by simp) heq

/-- Of the paths that are inserted one after another, an ascending list takes the first ones. -/
theorem mem_foldl_insertOrdered (h : Ascending found) :
    q ∈ files.foldl (fun found file => insertOrdered file found) found ↔
      q ∈ found ∨ First files q ∧ ∀ file ∈ found, file.components ≠ q.components := by
  induction files generalizing found with
  | nil => simp [not_first_nil]
  | cons p files ih =>
    rw [List.foldl_cons, ih (h.insertOrdered p), mem_insertOrdered_iff h, forall_mem_insertOrdered,
      first_cons]
    constructor
    · rintro ((hq | ⟨rfl, hall⟩) | ⟨hfirst, hp, hall⟩)
      · exact .inl hq
      · exact .inr ⟨.inl rfl, hall⟩
      · exact .inr ⟨.inr ⟨hfirst, hp⟩, hall⟩
    · rintro (hq | ⟨rfl | ⟨hfirst, hp⟩, hall⟩)
      · exact .inl (.inl hq)
      · exact .inl (.inr ⟨rfl, hall⟩)
      · exact .inr ⟨hfirst, hp, hall⟩

end Masthead.Path
