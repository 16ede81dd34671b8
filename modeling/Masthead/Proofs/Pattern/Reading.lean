import Masthead.Proofs.Occurrences
import Masthead.Proofs.Pattern.Remainder

namespace Masthead
open Text

namespace Pattern

variable {α : Type} {p q : Pattern} {read more : Text → Option Text} {take : Text → Text}

/-- What follows succeeds wherever a match that starts at the place can end, with `k` of the text
that is left. -/
def Succeeds (place : Cursor) (next : Cursor → Option α) (k : Text → α) : Prop :=
  ∀ after : Cursor, after.ahead <:+ place.ahead → next after = some (k after.ahead)

/-- If all that can follow succeeds, the match leaves what `read` leaves. -/
def Leaves (p : Pattern) (read : Text → Option Text) : Prop :=
  ∀ ⦃α : Type⦄ (place : Cursor) (next : Cursor → Option α) (k : Text → α),
    Succeeds place next k → p.run place next = (read place.ahead).map k

/-- The same of a pattern that takes a character at least: at the place itself nothing is tried. -/
def Advances (p : Pattern) (read : Text → Option Text) : Prop :=
  ∀ ⦃α : Type⦄ (place : Cursor) (next : Cursor → Option α) (k : Text → α),
    (∀ after : Cursor, after.ahead <:+ place.ahead → after.ahead.length < place.ahead.length →
      next after = some (k after.ahead)) → p.run place next = (read place.ahead).map k

theorem Succeeds.of_suffix {place after : Cursor} {next : Cursor → Option α} {k : Text → α}
    (h : Succeeds place next k) (hsuffix : after.ahead <:+ place.ahead) : Succeeds after next k :=
  fun _ hs => h _ (hs.trans hsuffix)

theorem Leaves.restAfter?_eq (h : p.Leaves read) (t : Text) : p.restAfter? t = read t := by
  have := h ⟨[], t⟩ (fun place => some place.ahead) id fun _ _ => rfl
  rwa [Option.map_id] at this

theorem Leaves.suffix (h : p.Leaves read) {t rest : Text} (hread : read t = some rest) :
    rest <:+ t :=
  suffix_of_restAfter? (by rw [h.restAfter?_eq, hread])

theorem Advances.leaves (h : p.Advances read) : p.Leaves read :=
  fun _ place next k hnext => h place next k fun after hsuffix _ => hnext after hsuffix

theorem Advances.length_lt (h : p.Advances read) {t rest : Text} (hread : read t = some rest) :
    rest.length < t.length := by
  have hrun := h ⟨[], t⟩
    (fun after => if after.ahead.length < t.length then some after.ahead else none) id
    fun after _ hlt => if_pos hlt
  rw [hread, Option.map_some] at hrun
  obtain ⟨after, -, hafter⟩ := forward_run p hrun
  obtain ⟨hlt, heq⟩ := Option.ite_none_right_eq_some.mp hafter
  rwa [← show after.ahead = rest from Option.some.inj heq]

theorem Leaves.concat (hp : p.Leaves read) (hq : q.Leaves fun t => some (take t)) :
    (p.concat q).Leaves fun t => (read t).map take := by
  intro α place next k hnext
  have hrest : Succeeds place (fun place => q.run place next) (k ∘ take) := fun middle hmiddle =>
    hq middle next k (hnext.of_suffix hmiddle)
  rw [run, hp place _ _ hrest, Option.map_map]

theorem Leaves.optional (hp : p.Leaves read) :
    (p.times 0 (some 1) true).Leaves fun t => some ((read t).getD t) := by
  intro α place next k hnext
  have hrun : (p.times 0 (some 1) true).run place next =
      orElse (p.run place next) fun _ => next place := rfl
  rw [hrun, hp place next k hnext, hnext place List.suffix_rfl]
  dsimp only
  cases read place.ahead <;> rfl

theorem Leaves.either (hp : p.Leaves read) (hq : q.Leaves more) :
    (p.either q).Leaves fun t => (read t).or (more t) := by
  intro α place next k hnext
  rw [run, hp place next k hnext, hq place next k hnext]
  dsimp only
  cases read place.ahead <;> rfl

section Words

/-- The characters of a word, and then a pattern. -/
def word (w : Text) (p : Pattern) : Pattern := w.foldr (fun c p => .concat (.chars (.single c)) p) p

theorem isPrefixOf?_append (v w t : Text) :
    (v ++ w).isPrefixOf? t = (v.isPrefixOf? t).bind (w.isPrefixOf? ·) := by
  induction v generalizing t with
  | nil => rfl
  | cons c v ih =>
    cases t with
    | nil => rfl
    | cons d t =>
      rw [List.cons_append, isPrefixOf?_cons_cons, isPrefixOf?_cons_cons]
      split
      · exact ih t
      · rfl

theorem run_single (c : Char) (place : Cursor) (next : Cursor → Option α) :
    (chars (.single c)).run place next =
      ([c].isPrefixOf? place.ahead).bind fun rest => next ⟨c :: place.behind, rest⟩ := by
  obtain ⟨behind, ahead⟩ := place
  cases ahead with
  | nil => rfl
  | cons d t =>
    rw [isPrefixOf?_cons_cons]
    by_cases hd : c = d
    · simp [run, hd]
    · simp [run, hd, Ne.symm hd]

theorem advances_single (c : Char) : (chars (.single c)).Advances fun t => [c].isPrefixOf? t := by
  intro α place next k hnext
  rw [run_single]
  dsimp only
  cases hrest : [c].isPrefixOf? place.ahead with
  | none => rfl
  | some rest =>
    have htext := isPrefixOf?_eq_some_iff.mp hrest
    exact hnext ⟨_, rest⟩ (htext ▸ List.suffix_append _ _) (by simp [htext])

theorem Leaves.char (hp : p.Leaves read) (c : Char) :
    (Pattern.concat (.chars (.single c)) p).Advances fun t => ([c].isPrefixOf? t).bind read := by
  intro α place next k hnext
  rw [run, run_single]
  dsimp only
  cases hrest : [c].isPrefixOf? place.ahead with
  | none => rfl
  | some rest =>
    have htext := isPrefixOf?_eq_some_iff.mp hrest
    refine hp ⟨_, rest⟩ next k fun after hsuffix => hnext after (hsuffix.trans ?_) ?_
    · exact htext ▸ List.suffix_append _ _
    · have := hsuffix.length_le
      simp only [htext, List.length_append, List.length_singleton]
      exact Nat.lt_one_add_iff.mpr this

theorem Leaves.word (hp : p.Leaves read) (w : Text) :
    (word w p).Leaves fun t => (w.isPrefixOf? t).bind read := by
  induction w with
  | nil => exact hp
  | cons c w ih =>
    have h := (ih.char c).leaves
    simp only [← Option.bind_assoc, ← isPrefixOf?_append [c]] at h
    exact h

theorem Leaves.word_advances (hp : p.Leaves read) (c : Char) (w : Text) :
    (Pattern.word (c :: w) p).Advances fun t => ((c :: w).isPrefixOf? t).bind read := by
  have h := (hp.word w).char c
  simp only [← Option.bind_assoc, ← isPrefixOf?_append [c]] at h
  exact h

theorem leaves_literal (w : Text) (c : Char) :
    (word w (.chars (.single c))).Leaves ((w ++ [c]).isPrefixOf? ·) := by
  have h := (advances_single c).leaves.word w
  simp only [← isPrefixOf?_append] at h
  exact h

end Words

section Repetition

def star (set : CharSet) (greedy : Bool) (p : Pattern) : Pattern :=
  .concat (.times (.chars set) 0 none greedy) p

/-- Goes over characters that satisfy `p` and reads behind the last one where that is possible, or
behind the first one. -/
def readBehind (p : Char → Bool) (greedy : Bool) (read : Text → Option Text) : Text → Option Text
  | [] => read []
  | c :: t =>
    if p c then
      if greedy then (readBehind p greedy read t).or (read (c :: t))
      else (read (c :: t)).or (readBehind p greedy read t)
    else read (c :: t)

section Greedy

variable {set : Char → Bool} {c : Char} {t : Text}

theorem readBehind_cons_of_pos (h : set c) :
    readBehind set true read (c :: t) = (readBehind set true read t).or (read (c :: t)) := by
  rw [readBehind, if_pos h, if_pos rfl]

theorem readBehind_cons_of_neg (h : ¬ set c) :
    readBehind set true read (c :: t) = read (c :: t) := by
  rw [readBehind, if_neg h]

theorem readBehind_of_fails (h : ∀ c t, set c → read (c :: t) = none) (t : Text) :
    readBehind set true read t = read (t.dropWhile set) := by
  induction t with
  | nil => rfl
  | cons c t ih =>
    by_cases hc : set c
    · rw [readBehind_cons_of_pos hc, List.dropWhile_cons_of_pos hc, ih, h c t hc, Option.or_none]
    · rw [readBehind_cons_of_neg hc, List.dropWhile_cons_of_neg hc]

theorem readBehind_some (set : Char → Bool) (take : Text → Text) (t : Text) :
    readBehind set true (fun t => some (take t)) t = some (take (t.dropWhile set)) := by
  induction t with
  | nil => rfl
  | cons c t ih =>
    by_cases hc : set c
    · rw [readBehind_cons_of_pos hc, List.dropWhile_cons_of_pos hc, ih, Option.some_or]
    · rw [readBehind_cons_of_neg hc, List.dropWhile_cons_of_neg hc]

theorem readBehind_eq_none_iff : readBehind set true read t = none ↔
    ∀ front back, t = front ++ back → (∀ c ∈ front, set c) → read back = none := by
  induction t with
  | nil => simp [readBehind]
  | cons c t ih =>
    constructor
    · rintro h (_ | ⟨d, front⟩) back htext hfront
      · obtain rfl : c :: t = back := htext
        by_cases hc : set c
        · rw [readBehind_cons_of_pos hc, Option.or_eq_none_iff] at h
          exact h.2
        · rwa [readBehind_cons_of_neg hc] at h
      · obtain ⟨rfl, rfl⟩ := List.cons.inj htext
        obtain ⟨hc, hfront⟩ := List.forall_mem_cons.mp hfront
        rw [readBehind_cons_of_pos hc, Option.or_eq_none_iff] at h
        exact ih.mp h.1 front back rfl hfront
    · intro h
      have hhere : read (c :: t) = none := h [] _ rfl (by simp)
      by_cases hc : set c
      · have hlater : readBehind set true read t = none := ih.mpr fun front back htext hfront =>
          h (c :: front) back (by rw [htext]; rfl) (List.forall_mem_cons.mpr ⟨hc, hfront⟩)
        rw [readBehind_cons_of_pos hc, hlater, hhere, Option.none_or]
      · rw [readBehind_cons_of_neg hc, hhere]

theorem readBehind_eq_some_iff {rest : Text} : readBehind set true read t = some rest ↔
    ∃ front back, t = front ++ back ∧ (∀ c ∈ front, set c) ∧ read back = some rest ∧
      ∀ c back', back = c :: back' → set c → readBehind set true read back' = none := by
  induction t with
  | nil =>
    constructor
    · exact fun h => ⟨[], [], rfl, by simp, h, by simp⟩
    · rintro ⟨front, back, htext, -, hread, -⟩
      obtain ⟨rfl, rfl⟩ := List.append_eq_nil_iff.mp htext.symm
      exact hread
  | cons c t ih =>
    constructor
    · intro h
      by_cases hc : set c
      · rw [readBehind_cons_of_pos hc, Option.or_eq_some_iff] at h
        rcases h with hlater | ⟨hlater, hhere⟩
        · obtain ⟨front, back, rfl, hfront, hread, hlast⟩ := ih.mp hlater
          exact ⟨c :: front, back, rfl, List.forall_mem_cons.mpr ⟨hc, hfront⟩, hread, hlast⟩
        · refine ⟨[], c :: t, rfl, by simp, hhere, ?_⟩
          rintro d back' heq -
          rwa [← (List.cons.inj heq).2]
      · rw [readBehind_cons_of_neg hc] at h
        refine ⟨[], c :: t, rfl, by simp, h, fun d back' heq hd => ?_⟩
        exact absurd ((List.cons.inj heq).1 ▸ hd) hc
    · rintro ⟨_ | ⟨d, front⟩, back, htext, hfront, hread, hlast⟩
      · obtain rfl : c :: t = back := htext
        by_cases hc : set c
        · rw [readBehind_cons_of_pos hc, hlast c t rfl hc, hread, Option.none_or]
        · rw [readBehind_cons_of_neg hc, hread]
      · obtain ⟨rfl, rfl⟩ := List.cons.inj htext
        obtain ⟨hc, hfront⟩ := List.forall_mem_cons.mp hfront
        rw [readBehind_cons_of_pos hc, ih.mpr ⟨front, back, rfl, hfront, hread, hlast⟩,
          Option.some_or]

theorem readBehind_blank {w : Text} (hne : w ≠ []) (hw : trimStart w = w)
    (more : Text → Option Text) (t : Text) :
    readBehind CharSet.blank.contains true (fun t => (w.isPrefixOf? t).bind more) t =
      (w.isPrefixOf? (trimStart t)).bind more := by
  obtain ⟨d, w, rfl⟩ := List.exists_cons_of_ne_nil hne
  refine readBehind_of_fails (fun c t hc => ?_) t
  have hd : d ≠ c := by
    rintro rfl
    simp [CharSet.contains, isBlank_head_trimStart hw] at hc
  simp [isPrefixOf?_cons_cons, hd]

end Greedy

theorem readBehind_full {needle : Text} (hne : needle ≠ []) (t : Text) :
    readBehind CharSet.full.contains false (needle.isPrefixOf? ·) t =
      (splitAtFirst? needle t).map Prod.snd := by
  induction t with
  | nil =>
    cases needle with
    | nil => exact absurd rfl hne
    | cons c needle => rfl
  | cons c t ih =>
    rw [readBehind, splitAtFirst?, CharSet.contains_full, if_pos rfl, ih]
    cases needle.isPrefixOf? (c :: t) with
    | some rest => rfl
    | none => simp [Function.comp_def]

theorem rounds_chars_cons {set : CharSet} {greedy isFirst : Bool} {behind t : Text} {c : Char}
    {next : Cursor → Option α} :
    rounds (run (.chars set)) greedy isFirst ⟨behind, c :: t⟩ next =
      if set.contains c then
        prefer greedy (fun _ => rounds (run (.chars set)) greedy false ⟨c :: behind, t⟩ next)
          (fun _ => next ⟨c :: behind, t⟩)
      else none := by
  rw [rounds]
  simp [run]

theorem prefer_map (greedy : Bool) (more enough : Option Text) (k : Text → α) :
    prefer greedy (fun _ => more.map k) (fun _ => enough.map k) =
      (if greedy then more.or enough else enough.or more).map k := by
  cases greedy <;> cases more <;> cases enough <;> rfl

theorem prefer_none (greedy : Bool) (enough : Option α) :
    prefer greedy (fun _ => none) (fun _ => enough) = enough := by
  cases greedy <;> cases enough <;> rfl

theorem Leaves.star (hq : q.Leaves read) (set : CharSet) (greedy : Bool) :
    (star set greedy q).Leaves (readBehind set.contains greedy read) := by
  intro α place next k hnext
  suffices h : ∀ isFirst, prefer greedy
      (fun _ => rounds (run (.chars set)) greedy isFirst place fun place => q.run place next)
      (fun _ => q.run place next) = (readBehind set.contains greedy read place.ahead).map k
    from h true
  obtain ⟨behind, ahead⟩ := place
  induction ahead generalizing behind with
  | nil =>
    intro isFirst
    have hnone : rounds (run (.chars set)) greedy isFirst ⟨behind, []⟩
        (fun place => q.run place next) = none := by rw [rounds, run]
    rw [hnone, prefer_none, hq _ next k hnext, readBehind]
  | cons c t ih =>
    intro isFirst
    have hrest := ih (c :: behind) (hnext.of_suffix (List.suffix_cons c t)) false
    rw [rounds_chars_cons, hrest, hq _ next k hnext, readBehind]
    split
    · exact prefer_map greedy _ _ k
    · exact prefer_none greedy _

end Repetition

section Rounds

/-- Reads again and again, as long as there is something to read. -/
def readAll (read : Text → Option Text) (t : Text) : Text :=
  match read t with
  | some rest => if rest.length < t.length then readAll read rest else t
  | none => t
termination_by t.length

theorem readAll_of_none {t : Text} (h : read t = none) : readAll read t = t := by
  rw [readAll, h]

theorem Advances.readAll_of_some (h : p.Advances read) {t rest : Text}
    (hread : read t = some rest) : readAll read t = readAll read rest := by
  rw [readAll, hread]
  exact if_pos (h.length_lt hread)

theorem Advances.readAll_suffix (h : p.Advances read) (t : Text) : readAll read t <:+ t := by
  fun_induction readAll read t with
  | case1 t rest hread hlt ih => exact ih.trans (h.leaves.suffix hread)
  | case2 => exact List.suffix_rfl
  | case3 => exact List.suffix_rfl

theorem Advances.readAll_eq_self_iff (h : p.Advances read) {t : Text} :
    readAll read t = t ↔ read t = none := by
  constructor
  · intro hself
    cases hread : read t with
    | none => rfl
    | some rest =>
      have hle := (h.readAll_suffix rest).length_le
      rw [← h.readAll_of_some hread, hself] at hle
      exact absurd (h.length_lt hread) (by omega)
  · exact readAll_of_none

/-- Of an end of a text, another end of it is left by reading on exactly if it is the same one and
there is nothing to read in it. -/
theorem Advances.readAll_eq_iff_of_suffix (h : p.Advances read) {t u : Text} (hsuffix : t <:+ u) :
    readAll read t = u ↔ t = u ∧ read u = none := by
  constructor
  · intro hall
    have hle := (h.readAll_suffix t).length_le
    rw [hall] at hle
    have heq := hsuffix.eq_of_length_le hle
    rw [heq, h.readAll_eq_self_iff] at hall
    exact ⟨heq, hall⟩
  · rintro ⟨rfl, hnone⟩
    exact readAll_of_none hnone

theorem Advances.rounds (h : p.Advances read) (isFirst : Bool) (place : Cursor)
    (next : Cursor → Option α) (k : Text → α) (hnext : Succeeds place next k) :
    rounds p.run true isFirst place next = (read place.ahead).map fun t => k (readAll read t) := by
  induction hlen : place.ahead.length using Nat.strongRecOn generalizing place isFirst with
  | ind n ih =>
    rw [Pattern.rounds]
    refine h place _ (fun t => k (readAll read t)) fun after hsuffix hlt => ?_
    have hmore := ih _ (hlen ▸ hlt) false after (hnext.of_suffix hsuffix) rfl
    rw [if_pos hlt, hmore, hnext after hsuffix]
    cases hread : read after.ahead with
    | none => rw [readAll_of_none hread]; rfl
    | some rest => rw [h.readAll_of_some hread]; rfl

theorem Advances.oneOrMore (h : p.Advances read) :
    (p.times 1 none true).Leaves fun t => (read t).map (readAll read) := by
  intro α place next k hnext
  have hrounds := h.rounds true place next k hnext
  rw [Option.map_map]
  exact hrounds

end Rounds

end Pattern
end Masthead
