import Masthead.Proofs.FileSystem.Frame

/-!
# Tasks that run side by side

Tasks that keep to separate parts of the file system do not notice one another: in whatever order
their operations are done, every task ends as it does alone.
-/
namespace Masthead.Task
open FileSystem

variable {α β : Type} {fs fs' : FileSystem} {part rest : Set Location}

/-- Tasks whose operations are done in some order, one at a time. The results come in the order in
which the tasks end. -/
inductive Interleaved {α : Type} : List (Task α) → FileSystem → List α → FileSystem → Prop
  | nil {fs : FileSystem} : Interleaved [] fs [] fs
  | collect {before after : List (Task α)} {a : α} {results : List α} {fs fs' : FileSystem}
      (others : Interleaved (before ++ after) fs results fs') :
      Interleaved (before ++ .done a :: after) fs (a :: results) fs'
  | step {before after : List (Task α)} {op : FileOperation} {next : op.Answer → Task α}
      {results : List α} {fs fs' : FileSystem}
      (others : Interleaved (before ++ next (op.apply fs).1 :: after) (op.apply fs).2 results fs') :
      Interleaved (before ++ .call op next :: after) fs results fs'

theorem run_call (op : FileOperation) (next : op.Answer → Task α) (fs : FileSystem) :
    (call op next).run fs = (next (op.apply fs).1).run (op.apply fs).2 := rfl

theorem bind_assoc {γ : Type} (t : Task α) (f : α → Task β) (g : β → Task γ) :
    t >>= f >>= g = t >>= fun a => f a >>= g := by
  induction t with
  | done a => rfl
  | call op next ih => exact congrArg (call op) (funext ih)

section Operations

variable (p : Path) (t : Text) (fs : FileSystem)

@[simp] theorem run_kind : (kind p).run fs = (fs.kind? p, fs) := rfl

@[simp] theorem run_read : (read p).run fs = (fs.readText p, fs) := rfl

@[simp] theorem run_write : (write p t).run fs = fs.writeText p t := rfl

@[simp] theorem run_permissions : (permissions p).run fs = (fs.permissions? p, fs) := rfl

@[simp] theorem run_setPermissions (new : Permissions) :
    (setPermissions p new).run fs = ((), fs.setPermissions p new) := rfl

@[simp] theorem run_rename (source target : Path) :
    (rename source target).run fs = fs.rename source target := rfl

end Operations

theorem Interleaved.of_step {before after : List (Task α)} {t : Task α} {results : List α}
    (h : Interleaved (before ++ (t.step fs).1 :: after) (t.step fs).2 results fs') :
    Interleaved (before ++ t :: after) fs results fs' := by
  cases t with
  | done a => exact h
  | call op next => exact .step h

/-! ## One task after the other -/

theorem Interleaved.run_task {before after : List (Task α)} {results : List α} (t : Task α)
    (h : Interleaved (before ++ after) (t.run fs).2 results fs') :
    Interleaved (before ++ t :: after) fs ((t.run fs).1 :: results) fs' := by
  induction t generalizing fs with
  | done a => exact .collect h
  | call op next ih => exact .step (ih _ h)

theorem Interleaved.run_first {ts : List (Task α)} {results : List α} (t : Task α)
    (h : Interleaved ts (t.run fs).2 results fs') :
    Interleaved (t :: ts) fs ((t.run fs).1 :: results) fs' :=
  @Interleaved.run_task _ _ _ [] _ _ t h

theorem exists_interleaved (ts : List (Task α)) (fs : FileSystem) :
    ∃ results fs', Interleaved ts fs results fs' := by
  induction ts generalizing fs with
  | nil => exact ⟨[], fs, .nil⟩
  | cons t ts ih =>
    obtain ⟨results, fs', h⟩ := ih (t.run fs).2
    exact ⟨_, fs', h.run_first t⟩

/-! ## Schedules -/

/-- What has come of a task that has ended. -/
def result? : Task α → Option α
  | done a => some a
  | call _ _ => none

/-- The tasks at these places of the list do one operation each, in this order. -/
def goOn : List ℕ → List (Task α) → FileSystem → List (Task α) × FileSystem
  | [], ts, fs => (ts, fs)
  | i :: turns, ts, fs =>
    match ts[i]? with
    | none => goOn turns ts fs
    | some t => goOn turns (ts.set i (t.step fs).1) (t.step fs).2

theorem interleaved_of_ended {ts : List (Task α)} (h : ∀ t ∈ ts, t.result?.isSome)
    (fs : FileSystem) : Interleaved ts fs (ts.filterMap result?) fs := by
  induction ts with
  | nil => exact .nil
  | cons t ts ih =>
    obtain ⟨hfirst, hothers⟩ := List.forall_mem_cons.mp h
    cases t with
    | done a => exact @Interleaved.collect _ [] ts a _ _ _ (ih hothers)
    | call op next => cases hfirst

/-- A schedule that brings the tasks to their ends is one of the orders. -/
theorem interleaved_goOn {turns : List ℕ} {ts : List (Task α)}
    (h : ∀ t ∈ (goOn turns ts fs).1, t.result?.isSome) :
    Interleaved ts fs ((goOn turns ts fs).1.filterMap result?) (goOn turns ts fs).2 := by
  induction turns generalizing ts fs with
  | nil => exact interleaved_of_ended h fs
  | cons i turns ih =>
    rw [goOn] at h ⊢
    cases hplace : ts[i]? with
    | none =>
      rw [hplace] at h
      exact ih h
    | some t =>
      rw [hplace] at h
      obtain ⟨hi, ht⟩ := List.getElem?_eq_some_iff.mp hplace
      have hsplit : ts = ts.take i ++ t :: ts.drop (i + 1) := by simp [← ht]
      have hstep : ∀ {results now}, Interleaved (ts.set i (t.step fs).1) (t.step fs).2 results now →
          Interleaved ts fs results now := by
        intro results now hnext
        rw [List.set_eq_take_append_cons_drop, if_pos hi] at hnext
        rw [hsplit]
        exact hnext.of_step
      exact hstep (ih h)

/-! ## What holds all the time -/

/-- What every operation of every task preserves holds to the end. Tasks whose results were collected
are still spoken of. -/
theorem Interleaved.invariant {κ : Type} {task : κ → Task α} {P : List κ → FileSystem → Prop}
    {live gone : List κ} {results : List α} (h : Interleaved (live.map task) fs results fs')
    (hperm : ∀ {ks ks' fs}, ks.Perm ks' → P ks fs → P ks' fs)
    (hstep : ∀ {k ks op next fs}, P (k :: ks) fs → task k = .call op next →
      ∃ k', task k' = next (op.apply fs).1 ∧ P (k' :: ks) (op.apply fs).2)
    (hstart : P (live ++ gone) fs) :
    ∃ ended, ended.map task = results.map .done ∧ P (ended ++ gone) fs' := by
  generalize hts : live.map task = ts at h
  induction h generalizing live gone with
  | nil =>
    obtain rfl := List.map_eq_nil_iff.mp hts
    exact ⟨[], rfl, hstart⟩
  | @collect before after a results fs fs' others ih =>
    obtain ⟨front, back, rfl, rfl, hback⟩ := List.map_eq_append_iff.mp hts
    obtain ⟨k, back, rfl, htask, rfl⟩ := List.map_eq_cons_iff.mp hback
    have hmoved : (front ++ k :: back ++ gone).Perm (front ++ back ++ k :: gone) :=
      (List.perm_middle.append_right gone).trans List.perm_middle.symm
    obtain ⟨ended, hended, hinv⟩ := ih (hperm hmoved hstart) List.map_append
    exact ⟨k :: ended, by rw [List.map_cons, List.map_cons, hended, htask],
      hperm List.perm_middle hinv⟩
  | @step before after op next results fs fs' others ih =>
    obtain ⟨front, back, rfl, rfl, hback⟩ := List.map_eq_append_iff.mp hts
    obtain ⟨k, back, rfl, htask, rfl⟩ := List.map_eq_cons_iff.mp hback
    obtain ⟨k', htask', hinv⟩ := hstep (hperm (List.perm_middle.append_right gone) hstart) htask
    exact ih (hperm (List.perm_middle.append_right gone).symm hinv)
      (by rw [List.map_append, List.map_cons, htask'])

/-! ## Tasks that only look -/

def ReadOnly : Task α → Prop
  | done _ => True
  | call op next => (∀ fs, (op.apply fs).2 = fs) ∧ ∀ answer, (next answer).ReadOnly

theorem readOnly_bind {t : Task α} {f : α → Task β} (ht : t.ReadOnly) (hf : ∀ a, (f a).ReadOnly) :
    (t >>= f).ReadOnly := by
  induction t with
  | done a => exact hf a
  | call op next ih => exact ⟨ht.1, fun answer => ih answer (ht.2 answer)⟩

theorem ReadOnly.map {t : Task α} (h : t.ReadOnly) (f : α → β) : (f <$> t).ReadOnly :=
  readOnly_bind h fun _ => trivial

theorem Interleaved.of_readOnly {ts : List (Task α)} {results : List α}
    (h : Interleaved ts fs results fs') (hread : ∀ t ∈ ts, t.ReadOnly) :
    fs' = fs ∧ results.Perm (ts.map fun t => (t.run fs).1) := by
  induction h with
  | nil => exact ⟨rfl, .nil⟩
  | @collect before after a results fs fs' others ih =>
    obtain ⟨hfs, hperm⟩ := ih fun t ht =>
      hread t (List.perm_middle.mem_iff.mpr (List.mem_cons_of_mem _ ht))
    have hmiddle := (@List.perm_middle _ (done a) before after).map
      fun t => (t.run fs).1
    exact ⟨hfs, (hperm.cons a).trans hmiddle.symm⟩
  | @step before after op next results fs fs' others ih =>
    have htask : (call op next).ReadOnly := hread _ (by simp)
    have hrest : ∀ t ∈ before ++ next (op.apply fs).1 :: after, t.ReadOnly := by
      intro t ht
      rcases List.mem_cons.mp (List.perm_middle.mem_iff.mp ht) with rfl | ht
      · exact htask.2 _
      · exact hread t (List.perm_middle.mem_iff.mpr (List.mem_cons_of_mem _ ht))
    obtain ⟨hfs, hperm⟩ := ih hrest
    rw [htask.1 fs] at hfs hperm
    refine ⟨hfs, hperm.trans ?_⟩
    have hrun : (call op next).run fs = (next (op.apply fs).1).run fs := by
      rw [run_call, htask.1 fs]
    simp only [List.map_append, List.map_cons, hrun]
    exact .refl _

/-! ## Tasks of which something is known in advance -/

/-- The result has the property, whatever the operations answer. -/
def Yields (P : α → Prop) : Task α → Prop
  | done a => P a
  | call _ next => ∀ answer, (next answer).Yields P

theorem Yields.bind {P : α → Prop} {Q : β → Prop} {t : Task α} {f : α → Task β} (ht : t.Yields P)
    (hf : ∀ a, P a → (f a).Yields Q) : (t >>= f).Yields Q := by
  induction t with
  | done a => exact hf a ht
  | call op next ih => exact fun answer => ih answer (ht answer)

theorem Yields.mono {P Q : α → Prop} {t : Task α} (h : t.Yields P) (hPQ : ∀ a, P a → Q a) :
    t.Yields Q := by
  induction t with
  | done a => exact hPQ a h
  | call op next ih => exact fun answer => ih answer (h answer)

theorem Yields.of_forall {P : α → Prop} (h : ∀ a, P a) (t : Task α) : t.Yields P := by
  induction t with
  | done a => exact h a
  | call op next ih => exact ih

theorem Yields.run {P : α → Prop} {t : Task α} (h : t.Yields P) (fs : FileSystem) :
    P (t.run fs).1 := by
  induction t generalizing fs with
  | done a => exact h
  | call op next ih => exact ih _ (h _) _

theorem Interleaved.of_yields {κ : Type} {keyed : List (κ × Task α)} {key : α → κ}
    {results : List α} (h : Interleaved (keyed.map Prod.snd) fs results fs')
    (hyields : ∀ k ∈ keyed, k.2.Yields fun a => key a = k.1) :
    (results.map key).Perm (keyed.map Prod.fst) := by
  generalize hts : keyed.map Prod.snd = ts at h
  induction h generalizing keyed with
  | nil =>
    obtain rfl := List.map_eq_nil_iff.mp hts
    exact .nil
  | @collect before after a results fs fs' others ih =>
    obtain ⟨front, back, rfl, rfl, hback⟩ := List.map_eq_append_iff.mp hts
    obtain ⟨⟨k, t⟩, back, rfl, rfl, rfl⟩ := List.map_eq_cons_iff.mp hback
    have hkey : key a = k := hyields (k, .done a) (by simp)
    have hothers := @ih (front ++ back)
      (fun k hk => hyields k (List.perm_middle.mem_iff.mpr (List.mem_cons_of_mem _ hk)))
      List.map_append
    rw [List.map_cons, hkey]
    have hmiddle := (@List.perm_middle _ (k, done a) front back).map Prod.fst
    exact (hothers.cons k).trans hmiddle.symm
  | @step before after op next results fs fs' others ih =>
    obtain ⟨front, back, rfl, rfl, hback⟩ := List.map_eq_append_iff.mp hts
    obtain ⟨⟨k, t⟩, back, rfl, rfl, rfl⟩ := List.map_eq_cons_iff.mp hback
    have htask : (Task.call op next).Yields fun a => key a = k := hyields (k, .call op next) (by simp)
    have hnext : ∀ other ∈ front ++ (k, next (op.apply fs).1) :: back,
        other.2.Yields fun a => key a = other.1 := by
      intro other hother
      rcases List.mem_cons.mp (List.perm_middle.mem_iff.mp hother) with rfl | hother
      · exact htask _
      · exact hyields other (List.perm_middle.mem_iff.mpr (List.mem_cons_of_mem _ hother))
    have hall := ih hnext (by simp)
    rwa [List.map_append, List.map_cons] at hall ⊢

/-! ## Tasks that keep apart -/

/-- Run alone, the task keeps to a part of the file system. -/
def Confined (part : Set Location) : Task α → FileSystem → Prop
  | done _, _ => True
  | call op next, fs =>
    op.Local part fs ∧ (next (op.apply fs).1).Confined part (op.apply fs).2

theorem confined_bind {t : Task α} {f : α → Task β} :
    (t >>= f).Confined part fs ↔
      t.Confined part fs ∧ (f (t.run fs).1).Confined part (t.run fs).2 := by
  induction t generalizing fs with
  | done a => exact ⟨fun h => ⟨trivial, h⟩, fun h => h.2⟩
  | call op next ih => exact (and_congr_right fun _ => ih _).trans and_assoc.symm

theorem Confined.map {t : Task α} (h : t.Confined part fs) (f : α → β) :
    (f <$> t).Confined part fs := confined_bind.mpr ⟨h, trivial⟩

section Operations

variable {p : Path} {t : Text}

@[simp] theorem confined_kind : (kind p).Confined part fs ↔ (FileOperation.kind p).Local part fs :=
  and_iff_left trivial

@[simp] theorem confined_read : (read p).Confined part fs ↔ (FileOperation.read p).Local part fs :=
  and_iff_left trivial

@[simp] theorem confined_write :
    (write p t).Confined part fs ↔ (FileOperation.write p t).Local part fs := and_iff_left trivial

@[simp] theorem confined_permissions :
    (permissions p).Confined part fs ↔ (FileOperation.permissions p).Local part fs :=
  and_iff_left trivial

@[simp] theorem confined_setPermissions {new : Permissions} : (setPermissions p new).Confined part fs ↔
    (FileOperation.setPermissions p new).Local part fs := and_iff_left trivial

@[simp] theorem confined_rename {source target : Path} : (rename source target).Confined part fs ↔
    (FileOperation.rename source target).Local part fs := and_iff_left trivial

@[simp] theorem confined_remove :
    (remove p).Confined part fs ↔ (FileOperation.remove p).Local part fs := and_iff_left trivial

end Operations

/-- A task, the part of the file system it keeps to, and the file system as it would be if nobody
else had changed anything. -/
structure Thread (α : Type) where
  task : Task α
  part : Set Location
  own : FileSystem

namespace Thread

/-- The task goes on as it would alone. -/
structure Undisturbed (th : Thread α) (fs : FileSystem) : Prop where
  confined : th.task.Confined th.part th.own
  agree : AgreeOn th.part th.own fs

/-- The thread after the first operation of its task. -/
def after (th : Thread α) (op : FileOperation) (next : op.Answer → Task α) : Thread α where
  task := next (op.apply th.own).1
  part := th.part
  own := (op.apply th.own).2

/-- What an undisturbed task does in the common file system is what it does in its own. -/
theorem Undisturbed.step {th : Thread α} {op : FileOperation} {next : op.Answer → Task α}
    (h : th.Undisturbed fs) (htask : th.task = .call op next) :
    (th.after op next).Undisturbed (op.apply fs).2 ∧
      (th.after op next).task = next (op.apply fs).1 ∧
      ∀ rest, Disjoint th.part rest → AgreeOn rest fs (op.apply fs).2 := by
  have hconfined := h.confined
  rw [htask] at hconfined
  obtain ⟨hlocal, hnext⟩ := hconfined
  obtain ⟨hanswer, hagree⟩ := hlocal.congr h.agree
  exact ⟨⟨hnext, hagree⟩, by rw [hanswer]; rfl, fun rest hrest => hlocal.frame h.agree hrest⟩

theorem run_after {th : Thread α} {op : FileOperation} {next : op.Answer → Task α}
    (htask : th.task = .call op next) :
    (th.after op next).task.run (th.after op next).own = th.task.run th.own := by
  rw [htask]
  rfl

end Thread

/-- Undisturbed threads with separate parts. -/
structure Apart (threads : List (Thread α)) (fs : FileSystem) : Prop where
  undisturbed : ∀ th ∈ threads, th.Undisturbed fs
  disjoint : threads.Pairwise fun a b => Disjoint a.part b.part

/-- Every thread has ended as it does alone, and nothing outside of their parts has changed. -/
structure Ended (threads : List (Thread α)) (fs : FileSystem) (results : List α)
    (fs' : FileSystem) : Prop where
  results : results.Perm (threads.map fun th => (th.task.run th.own).1)
  agree : ∀ th ∈ threads, AgreeOn th.part (th.task.run th.own).2 fs'
  frame : ∀ rest, (∀ th ∈ threads, Disjoint th.part rest) → AgreeOn rest fs fs'

section Middle

variable {front back : List (Thread α)} {th : Thread α} {results : List α} {a : α}
  {op : FileOperation} {next : op.Answer → Task α}

theorem mem_middle {t : Thread α} : t ∈ front ++ th :: back ↔ t = th ∨ t ∈ front ++ back :=
  List.perm_middle.mem_iff.trans List.mem_cons

theorem pairwise_middle_iff :
    (front ++ th :: back).Pairwise (fun a b => Disjoint a.part b.part) ↔
      (∀ t ∈ front ++ back, Disjoint th.part t.part) ∧
        (front ++ back).Pairwise fun a b => Disjoint a.part b.part :=
  (List.pairwise_middle fun h => Disjoint.symm h).trans List.pairwise_cons

theorem Apart.others (h : Apart (front ++ th :: back) fs) : Apart (front ++ back) fs where
  undisturbed t ht := h.undisturbed t (mem_middle.mpr (.inr ht))
  disjoint := (pairwise_middle_iff.mp h.disjoint).2

/-- The thread that makes a step leaves the parts of all other ones alone. -/
theorem Apart.step (h : Apart (front ++ th :: back) fs) (htask : th.task = .call op next) :
    Apart (front ++ th.after op next :: back) (op.apply fs).2 := by
  obtain ⟨hth, hothers⟩ := pairwise_middle_iff.mp h.disjoint
  obtain ⟨hgoes, -, hleaves⟩ := (h.undisturbed th (mem_middle.mpr (.inl rfl))).step htask
  refine ⟨?_, pairwise_middle_iff.mpr ⟨hth, hothers⟩⟩
  intro t ht
  rcases mem_middle.mp ht with rfl | ht
  · exact hgoes
  · have hold := h.others.undisturbed t ht
    exact ⟨hold.confined, hold.agree.trans (hleaves t.part (hth t ht))⟩

theorem Ended.collect (h : Apart (front ++ th :: back) fs) (htask : th.task = .done a)
    (hended : Ended (front ++ back) fs results fs') :
    Ended (front ++ th :: back) fs (a :: results) fs' := by
  have hrun : th.task.run th.own = (a, th.own) := by
    rw [htask]
    rfl
  refine ⟨?_, ?_, ?_⟩
  · refine List.Perm.trans ?_ (List.perm_middle.map _).symm
    rw [List.map_cons, hrun]
    exact hended.results.cons a
  · intro t ht
    rcases mem_middle.mp ht with rfl | ht
    · rw [hrun]
      have hothers := hended.frame t.part fun other hother =>
        ((pairwise_middle_iff.mp h.disjoint).1 other hother).symm
      exact (h.undisturbed t (mem_middle.mpr (.inl rfl))).agree.trans hothers
    · exact hended.agree t ht
  · exact fun rest hrest => hended.frame rest fun t ht => hrest t (mem_middle.mpr (.inr ht))

theorem Ended.step (h : Apart (front ++ th :: back) fs) (htask : th.task = .call op next)
    (hended : Ended (front ++ th.after op next :: back) (op.apply fs).2 results fs') :
    Ended (front ++ th :: back) fs results fs' := by
  have hrun := Thread.run_after htask
  obtain ⟨-, -, hleaves⟩ := (h.undisturbed th (mem_middle.mpr (.inl rfl))).step htask
  refine ⟨?_, ?_, ?_⟩
  · have hresults := hended.results
    rw [List.map_append, List.map_cons, hrun] at hresults
    rwa [List.map_append, List.map_cons]
  · intro t ht
    rcases mem_middle.mp ht with rfl | ht
    · rw [← hrun]
      exact hended.agree _ (mem_middle.mpr (.inl rfl))
    · exact hended.agree t (mem_middle.mpr (.inr ht))
  · intro rest hrest
    have hth := hrest th (mem_middle.mpr (.inl rfl))
    refine (hleaves rest hth).trans (hended.frame rest ?_)
    intro t ht
    rcases mem_middle.mp ht with rfl | ht
    · exact hth
    · exact hrest t (mem_middle.mpr (.inr ht))

end Middle

theorem Interleaved.of_threads {threads : List (Thread α)} {results : List α}
    (h : Interleaved (threads.map Thread.task) fs results fs') (hapart : Apart threads fs) :
    Ended threads fs results fs' := by
  generalize hts : threads.map Thread.task = ts at h
  induction h generalizing threads with
  | nil =>
    obtain rfl := List.map_eq_nil_iff.mp hts
    exact ⟨.nil, by simp, fun rest _ => .refl rest _⟩
  | @collect before after a results fs fs' others ih =>
    obtain ⟨front, back, rfl, rfl, hback⟩ := List.map_eq_append_iff.mp hts
    obtain ⟨th, back, rfl, htask, rfl⟩ := List.map_eq_cons_iff.mp hback
    exact .collect hapart htask (ih hapart.others List.map_append)
  | @step before after op next results fs fs' others ih =>
    obtain ⟨front, back, rfl, rfl, hback⟩ := List.map_eq_append_iff.mp hts
    obtain ⟨th, back, rfl, htask, rfl⟩ := List.map_eq_cons_iff.mp hback
    have hth := hapart.undisturbed th (mem_middle.mpr (.inl rfl))
    have hmap : (front ++ th.after op next :: back).map Thread.task =
        front.map Thread.task ++ next (op.apply fs).1 :: back.map Thread.task := by
      rw [List.map_append, List.map_cons, (hth.step htask).2.1]
    exact .step hapart htask (ih (hapart.step htask) hmap)

theorem Interleaved.of_confined {ι : Type} {jobs : List ι} {task : ι → Task α}
    {part : ι → Set Location} {results : List α}
    (h : Interleaved (jobs.map task) fs results fs')
    (hconfined : ∀ j ∈ jobs, (task j).Confined (part j) fs)
    (hapart : jobs.Pairwise fun i j => Disjoint (part i) (part j)) :
    results.Perm (jobs.map fun j => ((task j).run fs).1) ∧
      (∀ j ∈ jobs, AgreeOn (part j) ((task j).run fs).2 fs') ∧
      ∀ rest, (∀ j ∈ jobs, Disjoint (part j) rest) → AgreeOn rest fs fs' := by
  let thread (j : ι) : Thread α := ⟨task j, part j, fs⟩
  have htasks : (jobs.map thread).map Thread.task = jobs.map task := List.map_map ..
  rw [← htasks] at h
  have hthreads : Apart (jobs.map thread) fs := by
    refine ⟨?_, List.pairwise_map.mpr hapart⟩
    intro th hth
    obtain ⟨j, hj, rfl⟩ := List.mem_map.mp hth
    exact ⟨hconfined j hj, .refl _ fs⟩
  have hended := h.of_threads hthreads
  have hresults := hended.results
  rw [List.map_map] at hresults
  refine ⟨hresults, fun j hj => hended.agree (thread j) (List.mem_map_of_mem hj), ?_⟩
  exact fun rest hrest => hended.frame rest (List.forall_mem_map.mpr hrest)

end Masthead.Task
