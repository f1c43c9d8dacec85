import Mathlib.Algebra.BigOperators.Group.Finset.Basic
import Mathlib.Algebra.GroupWithZero.Nat
import Mathlib.Algebra.Order.BigOperators.Group.Finset
import ResourceTree.Proofs.Finish.Ownership

/-!
# Every run comes to an end

Each step uses up some of the work that is left: an object that was not begun is worth a frame with
all its dependencies, a frame is worth the looks at what it has to do, and a worker that waits is
worth more than one that walks on. Where objects and workers are finitely many, so are the steps.

* `DependencyGraph.Finite`, `Team.Staffed`: finitely many objects and workers;
* `Worker.work`, `Team.work`: the work that is left;
* `Takes.work_eq`, **`work_lt`**: every step uses up some of it;
* **`Reachable.no_endless_run`**: so no run goes on for ever.
-/

namespace ResourceTree

/-- Only objects below some number need finishing. -/
def DependencyGraph.Finite (g : DependencyGraph) : Prop := ∃ n, ∀ o, (g o).isSome = true → o < n

/-- What an object that was not begun is worth. -/
def DependencyGraph.work (g : DependencyGraph) (o : Nat) : Nat :=
  3 * ((g o).getD []).length + 5

instance (t : FinishTable) (o : Nat) : Decidable (t.Known o) :=
  decidable_of_iff (o ∈ t.finished ∨ (t.inProgress.lookup o).isSome = true)
    (or_congr Iff.rfl Option.isSome_iff_exists)

/-- What an object is worth, unless it was begun. -/
def DependencyGraph.openWork (g : DependencyGraph) (t : FinishTable) (o : Nat) : Nat :=
  if t.Known o then 0 else g.work o

theorem DependencyGraph.openWork_le {g : DependencyGraph} {t t' : FinishTable} {o : Nat}
    (h : t.Known o → t'.Known o) : g.openWork t' o ≤ g.openWork t o := by
  unfold openWork
  by_cases ho : t.Known o
  · rw [if_pos (h ho)]
    exact Nat.zero_le _
  · rw [if_neg ho]
    split_ifs
    · exact Nat.zero_le _
    · exact Nat.le_refl _

/-! ## The work that is left to a worker -/

/-- What a phase is worth: less the nearer a worker is to the end of its innermost object. -/
def Phase.work : Phase → Nat
  | ending => 1
  | calling => 2
  | walking => 3
  | woken _ => 4
  | announcing _ => 4
  | waiting _ => 5

def Frame.work (f : Frame) : Nat := 3 * f.todo.length + 5

namespace Worker

variable {x y : Worker} {ref : ObjectRef}

/-- The work that is left to a worker, but for objects that it has yet to begin. -/
def work (x : Worker) : Nat :=
  3 * x.roots.length + (x.stack.map Frame.work).sum + x.phase.work

theorem Takes.work_eq (h : x.Takes ref y) : y.work + 3 = x.work := by
  cases h with
  | dependency frame todo below hphase hstack htodo =>
    simp only [work, hstack, List.map_cons, List.sum_cons, Frame.work, htodo, List.length_cons]
    omega
  | root place roots hphase hstack hroots =>
    simp only [work, hroots, List.length_cons]
    omega

end Worker

namespace Team

variable {g : DependencyGraph} {roots : Nat → List (Place × ObjectRef)} {s s' : Team}
  {v w workers objects : Nat} {x : Worker}

/-- Only workers below some number are given objects. -/
def Staffed (roots : Nat → List (Place × ObjectRef)) : Prop := ∃ n, ∀ w, n ≤ w → roots w = []

/-- What the objects are worth that were not begun. -/
def openWork (g : DependencyGraph) (objects : Nat) (s : Team) : Nat :=
  ∑ o ∈ Finset.range objects, g.openWork s.table o

/-- The work that is left to so many workers on so many objects. -/
def work (g : DependencyGraph) (workers objects : Nat) (s : Team) : Nat :=
  ∑ w ∈ Finset.range workers, (s.workers w).work + openWork g objects s

/-! ## What a step uses up -/

theorem openWork_le (h : ∀ o, s.table.Known o → s'.table.Known o) :
    openWork g objects s' ≤ openWork g objects s :=
  Finset.sum_le_sum fun o _ => DependencyGraph.openWork_le (h o)

theorem openWork_begin {o : Nat} (ho : o < objects) (hopen : ¬ s.table.Known o)
    (hbegun : s'.table.Known o) (h : ∀ o, s.table.Known o → s'.table.Known o) :
    openWork g objects s' + g.work o ≤ openWork g objects s := by
  have hmem : o ∈ Finset.range objects := Finset.mem_range.mpr ho
  have hothers : ∑ a ∈ (Finset.range objects).erase o, g.openWork s'.table a ≤
      ∑ a ∈ (Finset.range objects).erase o, g.openWork s.table a :=
    Finset.sum_le_sum fun a _ => DependencyGraph.openWork_le (h a)
  have hnew : g.openWork s'.table o = 0 := if_pos hbegun
  have hold : g.openWork s.table o = g.work o := if_neg hopen
  rw [openWork, openWork, ← Finset.sum_erase_add _ _ hmem, ← Finset.sum_erase_add _ _ hmem]
  omega

theorem known_step (hstep : Step g w s s') {o : Nat} (ho : s.table.Known o) : s'.table.Known o := by
  cases hstep with
  | finished ref x dependencies t htakes hsome hstart =>
    cases FinishTable.starts_of_eq hstart with
    | finished hfinished => exact ho
  | cycle ref x dependencies t htakes hsome hstart =>
    cases FinishTable.starts_of_eq hstart with
    | cycle owner hopen howner hring => exact ho
  | wait ref x dependencies t htakes hsome hstart =>
    cases FinishTable.starts_of_eq hstart with
    | wait owner hopen howner hring => exact ho
  | begin ref x dependencies t htakes hsome hstart =>
    cases FinishTable.starts_of_eq hstart with
    | begun hopen hfree =>
      refine ho.imp id fun howner => ?_
      rw [table_set, FinishTable.lookup_cons_eq]
      split_ifs
      · exact ⟨w, rfl⟩
      · exact howner
  | finish frame below hphase hstack =>
    by_cases he : o = frame.object.id
    · exact .inl (he ▸ List.mem_cons_self)
    · refine ho.imp (List.mem_cons_of_mem _) fun howner => ?_
      rw [table_set, FinishTable.lookup_finish, if_neg he]
      exact howner
  | _ => exact ho

theorem workers_step (hstep : Step g w s s') (hv : v ≠ w) : s'.workers v = s.workers v := by
  cases hstep <;> rw [workers_set, if_neg hv]

/-- The worker that moves, and what was not begun, are worth less after the step. -/
theorem work_worker_lt (hstep : Step g w s s') (hobjects : ∀ o, (g o).isSome = true → o < objects) :
    (s'.workers w).work + openWork g objects s' < (s.workers w).work + openWork g objects s := by
  have hopen : openWork g objects s' ≤ openWork g objects s :=
    openWork_le fun _ ho => known_step hstep ho
  cases hstep with
  | skip ref x htakes hnone =>
    rw [workers_set, if_pos rfl]
    have hwork := htakes.work_eq
    omega
  | finished ref x dependencies t htakes hsome hstart =>
    rw [workers_set, if_pos rfl]
    have hwork := htakes.work_eq
    omega
  | cycle ref x dependencies t htakes hsome hstart =>
    rw [workers_set, if_pos rfl]
    have hwork := htakes.work_eq
    omega
  | wait ref x dependencies t htakes hsome hstart =>
    have hwork := htakes.work_eq
    have hphase : x.phase.work = 3 := by rw [htakes.walking.2]; rfl
    rw [workers_set, if_pos rfl]
    simp only [Worker.work, Phase.work] at hwork hphase ⊢
    omega
  | begin ref x dependencies t htakes hsome hstart =>
    have hwork := htakes.work_eq
    have hlt : ref.id < objects := hobjects _ (by rw [hsome]; rfl)
    cases hstarts : FinishTable.starts_of_eq hstart with
    | begun hunfinished hfree =>
      have hunknown : ¬ s.table.Known ref.id := by
        rintro (hfinished | ⟨owner, howner⟩)
        · exact hunfinished hfinished
        · rw [hfree] at howner
          cases howner
      have hknown : (set { s with
          table := { s.table with inProgress := (ref.id, w) :: s.table.inProgress } } w
          { x with stack := ⟨ref, dependencies⟩ :: x.stack }).table.Known ref.id :=
        .inr ⟨w, by rw [table_set, FinishTable.lookup_cons_eq, if_pos rfl]⟩
      have hbegun := openWork_begin (g := g) (s := s) hlt hunknown hknown fun o ho =>
        known_step (.begin ref x dependencies _ htakes hsome hstart) ho
      rw [workers_set, if_pos rfl]
      simp only [Worker.work, List.map_cons, List.sum_cons, Frame.work, DependencyGraph.work, hsome,
        Option.getD_some] at hwork hbegun ⊢
      omega
  | wake object hphase hset =>
    rw [workers_set, if_pos rfl]
    simp only [Worker.work, hphase, Phase.work] at hopen ⊢
    omega
  | goOn object hphase =>
    rw [workers_set, if_pos rfl]
    simp only [Worker.work, hphase, Phase.work] at hopen ⊢
    omega
  | call frame below hphase hstack htodo =>
    rw [workers_set, if_pos rfl]
    simp only [Worker.work, hphase, Phase.work] at hopen ⊢
    omega
  | «return» frame below error hphase hstack =>
    rw [workers_set, if_pos rfl]
    simp only [Worker.work, hphase, Phase.work] at hopen ⊢
    omega
  | finish frame below hphase hstack =>
    rw [workers_set, if_pos rfl]
    simp only [Worker.work, hphase, hstack, Phase.work, List.map_cons, List.sum_cons,
      Frame.work] at hopen ⊢
    omega
  | announce object hphase =>
    rw [workers_set, if_pos rfl]
    simp only [Worker.work, hphase, Phase.work] at hopen ⊢
    omega

/-- **Every step uses up some of the work that is left.** -/
theorem work_lt (hstep : Step g w s s') (hw : w < workers)
    (hobjects : ∀ o, (g o).isSome = true → o < objects) :
    work g workers objects s' < work g workers objects s := by
  have hmem : w ∈ Finset.range workers := Finset.mem_range.mpr hw
  have hothers : ∑ v ∈ (Finset.range workers).erase w, (s'.workers v).work =
      ∑ v ∈ (Finset.range workers).erase w, (s.workers v).work :=
    Finset.sum_congr rfl fun v hv => by rw [workers_step hstep (Finset.ne_of_mem_erase hv)]
  have hlt := work_worker_lt hstep hobjects
  rw [work, work, ← Finset.sum_erase_add _ _ hmem, ← Finset.sum_erase_add _ _ hmem, hothers]
  omega

/-! ## Runs -/

theorem not_step_of_completed (hw : (s.workers w).Completed) : ¬ Step g w s s' := by
  have htakes : ∀ ref x, ¬ (s.workers w).Takes ref x := by
    rintro ref x (⟨frame, todo, below, -, hstack, -⟩ | ⟨place, rest, -, -, hroots⟩)
    · rw [hw.stack] at hstack
      cases hstack
    · rw [hw.roots] at hroots
      cases hroots
  have hwalking := hw.phase
  have hstack := hw.stack
  intro hstep
  cases hstep <;> simp_all

theorem Reachable.completed_of_roots (h : Reachable g roots s) (hw : roots w = []) :
    (s.workers w).Completed := by
  induction h with
  | start => exact ⟨hw, rfl, rfl⟩
  | @step s s' v hs hstep ih =>
    have hv : w ≠ v := fun he => not_step_of_completed ih (he ▸ hstep)
    rw [workers_step hstep hv]
    exact ih

/-- **No run goes on for ever**, where objects and workers are finitely many. -/
theorem Reachable.no_endless_run (h : Reachable g roots s) (hobjects : g.Finite)
    (hworkers : Staffed roots) :
    ¬ ∃ run : Nat → Team, run 0 = s ∧ ∀ i, ∃ w, Step g w (run i) (run (i + 1)) := by
  rintro ⟨run, hstart, hrun⟩
  obtain ⟨objects, hobjects⟩ := hobjects
  obtain ⟨workers, hworkers⟩ := hworkers
  have hreachable : ∀ i, Reachable g roots (run i) := by
    intro i
    induction i with
    | zero => exact hstart ▸ h
    | succ i ih =>
      obtain ⟨w, hstep⟩ := hrun i
      exact ih.step hstep
  have hless : ∀ i, work g workers objects (run i) + i ≤ work g workers objects (run 0) := by
    intro i
    induction i with
    | zero => exact Nat.le_refl _
    | succ i ih =>
      obtain ⟨w, hstep⟩ := hrun i
      have hw : w < workers := by
        by_contra hout
        exact not_step_of_completed
          ((hreachable i).completed_of_roots (hworkers w (Nat.le_of_not_lt hout))) hstep
      have hlt := work_lt hstep hw hobjects
      omega
  have hlast := hless (work g workers objects (run 0) + 1)
  omega

end Team

end ResourceTree
