import Masthead.Pattern.Basic

namespace Masthead.Pattern

variable {α : Type} {m : Matcher α}

/-- A result comes from what follows, tried at a place behind which no more of the text lies. -/
def Forward (m : Matcher α) : Prop :=
  ∀ ⦃place : Cursor⦄ ⦃next : Cursor → Option α⦄ ⦃a : α⦄, m place next = some a →
    ∃ after : Cursor, after.ahead <:+ place.ahead ∧ next after = some a

theorem orElse_eq_some {first : Option α} {second : Unit → Option α} {a : α}
    (h : orElse first second = some a) : first = some a ∨ second () = some a := by
  cases first with
  | none => exact .inr h
  | some b => exact .inl h

theorem prefer_eq_some {greedy : Bool} {more enough : Unit → Option α} {a : α}
    (h : prefer greedy more enough = some a) : more () = some a ∨ enough () = some a := by
  unfold prefer at h
  split at h
  · exact orElse_eq_some h
  · exact (orElse_eq_some h).symm

theorem Forward.exactly (hm : Forward m) (n : Nat) : Forward (exactly m n) := by
  induction n with
  | zero =>
    intro place next a h
    exact ⟨place, List.suffix_rfl, h⟩
  | succ n ih =>
    intro place next a h
    obtain ⟨middle, hmiddle, hnext⟩ := hm h
    obtain ⟨after, hafter, ha⟩ := ih hnext
    exact ⟨after, hafter.trans hmiddle, ha⟩

theorem Forward.atMost (hm : Forward m) (greedy : Bool) (n : Nat) :
    Forward (atMost m greedy n) := by
  induction n with
  | zero =>
    intro place next a h
    exact ⟨place, List.suffix_rfl, h⟩
  | succ n ih =>
    intro place next a h
    rcases prefer_eq_some h with hmore | henough
    · obtain ⟨middle, hmiddle, hnext⟩ := hm hmore
      obtain ⟨after, hafter, ha⟩ := ih hnext
      exact ⟨after, hafter.trans hmiddle, ha⟩
    · exact ⟨place, List.suffix_rfl, henough⟩

theorem Forward.rounds (hm : Forward m) (greedy isFirst : Bool) :
    Forward (rounds m greedy isFirst) := by
  intro place next a h
  induction hlen : place.ahead.length using Nat.strongRecOn generalizing place isFirst with
  | ind n ih =>
    rw [Pattern.rounds] at h
    obtain ⟨middle, hmiddle, hnext⟩ := hm h
    split at hnext
    · rename_i hless
      rcases prefer_eq_some hnext with hmore | henough
      · obtain ⟨after, hafter, ha⟩ := ih _ (hlen ▸ hless) false hmore rfl
        exact ⟨after, hafter.trans hmiddle, ha⟩
      · exact ⟨middle, hmiddle, henough⟩
    · split at hnext
      · exact ⟨middle, hmiddle, hnext⟩
      · simp at hnext

theorem Forward.atLeast (hm : Forward m) (greedy : Bool) (n : Nat) :
    Forward (atLeast m greedy n) := by
  intro place next a h
  cases n with
  | zero =>
    rw [Pattern.atLeast] at h
    rcases prefer_eq_some h with hmore | henough
    · exact hm.rounds greedy true hmore
    · exact ⟨place, List.suffix_rfl, henough⟩
  | succ n =>
    obtain ⟨middle, hmiddle, hnext⟩ := hm.exactly n h
    obtain ⟨after, hafter, ha⟩ := hm.rounds greedy true hnext
    exact ⟨after, hafter.trans hmiddle, ha⟩

theorem forward_run (p : Pattern) : Forward (α := α) p.run := by
  induction p with
  | empty =>
    intro place next a h
    exact ⟨place, List.suffix_rfl, by simpa [run] using h⟩
  | chars set =>
    intro place next a h
    rw [run] at h
    split at h
    · rename_i c rest hahead
      split at h
      · exact ⟨⟨c :: place.behind, rest⟩, hahead ▸ List.suffix_cons c rest, h⟩
      · simp at h
    · simp at h
  | anchor anchor =>
    intro place next a h
    rw [run] at h
    split at h
    · exact ⟨place, List.suffix_rfl, h⟩
    · simp at h
  | concat first second ihfirst ihsecond =>
    intro place next a h
    rw [run] at h
    obtain ⟨middle, hmiddle, hnext⟩ := ihfirst h
    obtain ⟨after, hafter, ha⟩ := ihsecond hnext
    exact ⟨after, hafter.trans hmiddle, ha⟩
  | either first second ihfirst ihsecond =>
    intro place next a h
    rw [run] at h
    rcases orElse_eq_some h with hfirst | hsecond
    · exact ihfirst hfirst
    · exact ihsecond hsecond
  | times body least most greedy ih =>
    intro place next a h
    cases most with
    | none =>
      rw [run] at h
      exact ih.atLeast greedy least h
    | some most =>
      rw [run] at h
      obtain ⟨middle, hmiddle, hnext⟩ := ih.exactly least h
      obtain ⟨after, hafter, ha⟩ := ih.atMost greedy _ hnext
      exact ⟨after, hafter.trans hmiddle, ha⟩

theorem suffix_of_restAfter? {p : Pattern} {t rest : Text} (h : p.restAfter? t = some rest) :
    rest <:+ t := by
  obtain ⟨after, hafter, hrest⟩ := forward_run p h
  rwa [← Option.some.inj hrest]

end Masthead.Pattern
