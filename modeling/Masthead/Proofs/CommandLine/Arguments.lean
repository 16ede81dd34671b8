import Masthead.CommandLine.Arguments

namespace Masthead.CommandLine

variable {P : Arguments → Prop} {a a' : Arguments} {p : Parameter} {values ts : List Text}
  {r : Reading}

/-- The property holds of what has been read, unless reading has failed. -/
def Keeps (P : Arguments → Prop) (read : Except UsageError Reading) : Prop :=
  ∀ r, read = .ok r → P r.arguments

theorem keeps_ok (h : P r.arguments) : Keeps P (.ok r) := by
  rintro _ ⟨⟩
  exact h

theorem keeps_error (e : UsageError) : Keeps P (.error e) := by
  intro r h
  cases h

theorem Keeps.bind {read : Except UsageError Reading} {f : Reading → Except UsageError Reading}
    (h : Keeps P read) (hf : ∀ r, P r.arguments → Keeps P (f r)) : Keeps P (read >>= f) := by
  cases read with
  | error e => exact keeps_error e
  | ok r => exact hf r (h r rfl)

section Put

variable (hput : ∀ {a a' p value}, P a → Arguments.put a p value = .ok a' → P a')
include hput

theorem foldlM_put (h : P a) (hvalues : values.foldlM (fun a value => a.put p value) a = .ok a') :
    P a' := by
  induction values generalizing a with
  | nil =>
    cases hvalues
    exact h
  | cons value values ih =>
    rw [List.foldlM_cons] at hvalues
    cases hone : a.put p value with
    | error e =>
      rw [hone] at hvalues
      cases hvalues
    | ok next =>
      rw [hone] at hvalues
      exact ih (hput h hone) hvalues

theorem keeps_assign (h : P r.arguments) : Keeps P (r.assign p values) := by
  have hassign : ∀ values : List Text, Keeps P
      (if p ∈ r.given && !p.isRepeatable then .error .conflict
      else do
        let arguments ← values.foldlM (fun a value => a.put p value) r.arguments
        .ok ⟨arguments, p :: r.given, none⟩) := by
    intro values
    split
    · exact keeps_error _
    · cases hfold : values.foldlM (fun a value => a.put p value) r.arguments with
      | error e => exact keeps_error e
      | ok a => exact keeps_ok (r := ⟨a, p :: r.given, none⟩) (foldlM_put hput h hfold)
  unfold Reading.assign
  cases values with
  | nil =>
    cases p.impliedValue? with
    | none => exact keeps_error _
    | some implied => exact hassign [implied]
  | cons value values => exact hassign (value :: values)

theorem keeps_settle (h : P r.arguments) : Keeps P r.settle := by
  unfold Reading.settle
  split
  · exact keeps_ok h
  · exact keeps_assign hput h

theorem keeps_give (h : P r.arguments) (value : Option Text) : Keeps P (r.give p value) := by
  refine (keeps_settle hput h).bind fun r h => ?_
  cases value with
  | some value => exact keeps_assign hput h
  | none =>
    dsimp only
    split
    · exact keeps_ok h
    · exact keeps_assign hput h

theorem keeps_readLong (h : P r.arguments) (name : Text) (value : Option Text) :
    Keeps P (r.readLong name value) := by
  unfold Reading.readLong
  cases Parameter.ofName? name with
  | none => exact keeps_error _
  | some p =>
    dsimp only
    split
    · exact keeps_error _
    · exact keeps_give hput h value

theorem keeps_readCluster (h : P r.arguments) (letters : Text) : Keeps P (r.readCluster letters) := by
  induction letters generalizing r with
  | nil => exact keeps_ok h
  | cons c letters ih =>
    unfold Reading.readCluster
    cases Parameter.ofLetter? c with
    | none => exact keeps_error _
    | some p =>
      dsimp only
      split
      · exact keeps_give hput h _
      · exact (keeps_give hput h none).bind fun r h => ih h

theorem keeps_readPath (h : P r.arguments) (t : Text) : Keeps P (r.readPath t) := by
  unfold Reading.readPath
  split
  · exact keeps_ok h
  · exact (keeps_settle hput h).bind fun r h => keeps_ok h

theorem keeps_readPlain (h : P r.arguments) (t : Text) : Keeps P (r.readPlain t) := by
  unfold Reading.readPlain
  split
  · exact keeps_ok h
  · exact keeps_readPath hput h t

theorem keeps_readPaths (h : P r.arguments) (ts : List Text) :
    Keeps P (ts.foldlM Reading.readPath r) := by
  induction ts generalizing r with
  | nil => exact keeps_ok h
  | cons t ts ih =>
    rw [List.foldlM_cons]
    exact (keeps_readPath hput h t).bind fun r h => ih h

theorem keeps_readAll (h : P r.arguments) (ts : List Text) : Keeps P (r.readAll ts) := by
  induction ts generalizing r with
  | nil => exact keeps_settle hput h
  | cons t ts ih =>
    rw [Reading.readAll]
    cases Form.ofText t with
    | separator => exact (keeps_readPaths hput h ts).bind fun r h => keeps_settle hput h
    | long name value => exact (keeps_readLong hput h name value).bind fun r h => ih h
    | cluster letters => exact (keeps_readCluster hput h letters).bind fun r h => ih h
    | plain => exact (keeps_readPlain hput h t).bind fun r h => ih h

theorem Arguments.of_parse (hempty : P .empty) (h : Arguments.parse ts = .ok a) : P a := by
  unfold Arguments.parse at h
  cases hread : Reading.start.readAll ts with
  | error e =>
    rw [hread] at h
    cases h
  | ok r =>
    have hr : P r.arguments := keeps_readAll (r := .start) hput hempty ts r hread
    cases hcheck : r.check with
    | error e =>
      rw [hread] at h
      simp [hcheck, bind, Except.bind] at h
    | ok =>
      rw [hread] at h
      obtain rfl : r.arguments = a := by simpa [hcheck, bind, Except.bind] using h
      exact hr

end Put

theorem Arguments.of_asCount {t : Text} {n : Nat} (h : Arguments.asCount t = .ok n) :
    1 ≤ n ∧ n ≤ Arguments.countLimit := by
  unfold Arguments.asCount at h
  extract_lets digits at h
  split at h
  · rename_i hcount
    cases h
    exact hcount.2.2
  · cases h

theorem Arguments.maxParallelism_of_parse (h : Arguments.parse ts = .ok a) :
    ∀ n ∈ a.maxParallelism, 1 ≤ n ∧ n ≤ Arguments.countLimit := by
  refine Arguments.of_parse (P := fun a => ∀ n ∈ a.maxParallelism, 1 ≤ n ∧ n ≤ Arguments.countLimit)
    ?_ (by nofun) h
  intro a a' p value ha hput
  cases p with
  | maxParallelism =>
    cases hcount : Arguments.asCount value with
    | error e => simp [Arguments.put, hcount, bind, Except.bind] at hput
    | ok n =>
      simp only [Arguments.put, hcount, bind, Except.bind, pure, Except.pure, Except.ok.injEq] at hput
      subst hput
      rintro _ ⟨⟩
      exact Arguments.of_asCount hcount
  | help | version => cases hput
  | paths | definition | saveDiff | config | colors =>
    simp only [Arguments.put, bind, Except.bind, pure, Except.pure] at hput
    split at hput
    · cases hput
    · cases hput
      exact ha
  | remove | modify | showDiff | keyword | property | ignoreNonCommentText | noConfig | verbose
    | quiet =>
    cases hput
    exact ha

end Masthead.CommandLine
