import Masthead.Proofs.DominantEnding

namespace Masthead
namespace Text

variable {needle new t before rest : Text} {c d : Char} {hn : needle ≠ []}

theorem splitAtFirst?_needle_append (needle t : Text) :
    splitAtFirst? needle (needle ++ t) = some ([], t) := by
  cases needle with
  | nil => cases t <;> simp [splitAtFirst?]
  | cons c needle =>
    have hfront : (c :: needle).isPrefixOf? (c :: (needle ++ t)) = some t :=
      isPrefixOf?_eq_some_iff.mpr rfl
    rw [List.cons_append, splitAtFirst?, hfront]

theorem splitAtFirst?_cons (h : ¬ needle <+: c :: t) : splitAtFirst? needle (c :: t) =
    (splitAtFirst? needle t).map fun (before, rest) => (c :: before, rest) := by
  have hnone : needle.isPrefixOf? (c :: t) = none := by
    rw [Option.eq_none_iff_forall_ne_some]
    intro rest hrest
    exact h ⟨rest, (isPrefixOf?_eq_some_iff.mp hrest).symm⟩
  rw [splitAtFirst?, hnone]

/-! ## Replacing -/

theorem replaceOccurrences_of_none (h : splitAtFirst? needle t = none) :
    replaceOccurrences needle new hn t = t := by
  rw [replaceOccurrences]
  split
  · rfl
  · rename_i heq
    rw [h] at heq
    cases heq

theorem replaceOccurrences_of_some (h : splitAtFirst? needle t = some (before, rest)) :
    replaceOccurrences needle new hn t = before ++ new ++ replaceOccurrences needle new hn rest := by
  rw [replaceOccurrences]
  split
  · rename_i heq
    rw [h] at heq
    cases heq
  · rename_i heq
    rw [h] at heq
    cases heq
    rfl

theorem replaceOccurrences_needle_append : replaceOccurrences needle new hn (needle ++ t) =
    new ++ replaceOccurrences needle new hn t :=
  replaceOccurrences_of_some (splitAtFirst?_needle_append needle t)

theorem replaceOccurrences_cons (h : ¬ needle <+: c :: t) :
    replaceOccurrences needle new hn (c :: t) = c :: replaceOccurrences needle new hn t := by
  have hcons := splitAtFirst?_cons h
  cases hsplit : splitAtFirst? needle t with
  | none =>
    rw [hsplit] at hcons
    rw [replaceOccurrences_of_none hcons, replaceOccurrences_of_none hsplit]
  | some parts =>
    rw [hsplit] at hcons
    rw [replaceOccurrences_of_some hcons, replaceOccurrences_of_some hsplit]
    rfl

theorem replace_eq (hn : needle ≠ []) (new t : Text) :
    replace needle new t = replaceOccurrences needle new hn t := by rw [replace, dif_neg hn]

@[simp] theorem replace_nil (hn : needle ≠ []) (new : Text) : replace needle new [] = [] := by
  rw [replace_eq hn, replaceOccurrences_of_none (by simp [splitAtFirst?, hn])]

theorem replace_needle_append (hn : needle ≠ []) (new t : Text) :
    replace needle new (needle ++ t) = new ++ replace needle new t := by
  rw [replace_eq hn, replaceOccurrences_needle_append, replace_eq hn]

theorem replace_cons (hn : needle ≠ []) (h : ¬ needle <+: c :: t) (new : Text) :
    replace needle new (c :: t) = c :: replace needle new t := by
  rw [replace_eq hn, replaceOccurrences_cons h, replace_eq hn]

theorem replace_singleton_cons (c d : Char) (new t : Text) :
    replace [c] new (d :: t) = (if d = c then new else [d]) ++ replace [c] new t := by
  split
  · rename_i heq
    rw [heq]
    exact replace_needle_append (by simp) new t
  · rename_i hne
    exact replace_cons (by simp) (fun h => hne (List.cons_prefix_cons.mp h).1.symm) new

/-! ## Counting -/

/-- How often a needle is found from left to right, without overlaps. -/
def occurrences (needle : Text) (hn : needle ≠ []) (t : Text) : Nat :=
  match _h : splitAtFirst? needle t with
  | none => 0
  | some (_, rest) => occurrences needle hn rest + 1
termination_by t.length
decreasing_by
  have := eq_of_splitAtFirst?_eq_some _h
  have := List.length_pos_iff.mpr hn
  subst t
  simp only [List.length_append]
  omega

theorem occurrences_of_none (h : splitAtFirst? needle t = none) : occurrences needle hn t = 0 := by
  rw [occurrences]
  split
  · rfl
  · rename_i heq
    rw [h] at heq
    cases heq

theorem occurrences_of_some (h : splitAtFirst? needle t = some (before, rest)) :
    occurrences needle hn t = occurrences needle hn rest + 1 := by
  rw [occurrences]
  split
  · rename_i heq
    rw [h] at heq
    cases heq
  · rename_i heq
    rw [h] at heq
    cases heq
    rfl

theorem occurrences_needle_append :
    occurrences needle hn (needle ++ t) = occurrences needle hn t + 1 :=
  occurrences_of_some (splitAtFirst?_needle_append needle t)

theorem occurrences_cons (h : ¬ needle <+: c :: t) :
    occurrences needle hn (c :: t) = occurrences needle hn t := by
  have hcons := splitAtFirst?_cons h
  cases hsplit : splitAtFirst? needle t with
  | none =>
    rw [hsplit] at hcons
    rw [occurrences_of_none hcons, occurrences_of_none hsplit]
  | some parts =>
    rw [hsplit] at hcons
    rw [occurrences_of_some hcons, occurrences_of_some hsplit]

end Text

namespace LineEnding
open Text

theorem not_crlf_prefix_cons {c : Char} {t : Text} (h : c = '\r' → t.head? ≠ some '\n') :
    ¬ crlf.text <+: c :: t := by
  rintro ⟨rest, hrest⟩
  obtain ⟨rfl, rfl⟩ := List.cons.inj hrest
  exact h rfl rfl

/-- Endings are replaced by making line feeds of all of them first. -/
theorem replaceAll_eq_replace (new t : Text) : replaceAll new t =
    replace ['\n'] new (replace ['\r'] ['\n'] (replace crlf.text ['\n'] t)) := by
  induction t using endings_induction with
  | nil => simp [replaceAll, crlf.text_ne_nil]
  | crlf t ih =>
    have hpair : replace crlf.text ['\n'] ('\r' :: '\n' :: t) = '\n' :: replace crlf.text ['\n'] t :=
      replace_needle_append crlf.text_ne_nil ['\n'] t
    rw [hpair]
    simp [replace_singleton_cons, replaceAll, ih]
  | cr t hhead ih =>
    have hlone : replace crlf.text ['\n'] ('\r' :: t) = '\r' :: replace crlf.text ['\n'] t :=
      replace_cons crlf.text_ne_nil (not_crlf_prefix_cons fun _ => hhead) ['\n']
    have hending : replaceAll new ('\r' :: t) = new ++ replaceAll new t :=
      replaceAll_ending_append (e := cr) (fun _ => hhead) new
    rw [hlone, hending]
    simp [replace_singleton_cons, ih]
  | lf t ih =>
    have hlone : replace crlf.text ['\n'] ('\n' :: t) = '\n' :: replace crlf.text ['\n'] t :=
      replace_cons crlf.text_ne_nil (not_crlf_prefix_cons (by simp)) ['\n']
    rw [hlone]
    simp [replace_singleton_cons, replaceAll, ih]
  | cons c t hc ih =>
    have hne : c ≠ '\r' ∧ c ≠ '\n' := by simpa [isLineBreak] using hc
    rw [replace_cons crlf.text_ne_nil (not_crlf_prefix_cons fun h => absurd h hne.1),
      replaceAll_cons hc, ih]
    simp [replace_singleton_cons, hne]

theorem tally_crlf_cons (t : Text) :
    tally ('\r' :: '\n' :: t) = ((tally t).1 + 1, (tally t).2.1, (tally t).2.2) := rfl

theorem tally_lf_cons (t : Text) :
    tally ('\n' :: t) = ((tally t).1, (tally t).2.1 + 1, (tally t).2.2) := rfl

/-- Pairs are counted in both characters, so what they leave of the counts are the endings of one
character. -/
theorem count_eq_tally_add (t : Text) :
    occurrences crlf.text crlf.text_ne_nil t = (tally t).1 ∧
      t.count '\n' = (tally t).2.1 + (tally t).1 ∧ t.count '\r' = (tally t).2.2 + (tally t).1 := by
  induction t using endings_induction with
  | nil => exact ⟨occurrences_of_none rfl, rfl, rfl⟩
  | crlf t ih =>
    have hpair : occurrences crlf.text crlf.text_ne_nil ('\r' :: '\n' :: t) =
        occurrences crlf.text crlf.text_ne_nil t + 1 := occurrences_needle_append
    rw [hpair, tally_crlf_cons]
    simp
    omega
  | cr t hhead ih =>
    rw [occurrences_cons (not_crlf_prefix_cons fun _ => hhead), tally_cr_cons hhead]
    simp
    omega
  | lf t ih =>
    rw [occurrences_cons (not_crlf_prefix_cons (by simp)), tally_lf_cons]
    simp
    omega
  | cons c t hc ih =>
    have hne : c ≠ '\r' ∧ c ≠ '\n' := by simpa [isLineBreak] using hc
    rw [occurrences_cons (not_crlf_prefix_cons fun h => absurd h hne.1), tally_cons hc,
      List.count_cons_of_ne hne.1, List.count_cons_of_ne hne.2]
    exact ih

end LineEnding
end Masthead
