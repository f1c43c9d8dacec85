import ResourceTree.Proofs.Finish.Descent

/-!
# When objects depend on themselves

A worker that may not wait closes a ring of workers, and each of them has begun what the one before
it waits for. Put together, the paths of dependencies that they have begun are a ring of objects.
The other way round, where every worker may wait, the objects are finished in an order in which no
ring fits.

* `cycle_of_closesRing`: a ring of workers is a ring of objects;
* `Ordered.acyclic`: there is no ring among objects that were finished in order;
* `Team.Reported`: what was recorded about rings;
* **`Reachable.verdict_exact`**: when all workers have completed, a dependency diagnostic was
  recorded exactly if an object of the tree leads to a ring, and nobody is refused to wait if not.
-/

namespace ResourceTree

variable {g : DependencyGraph} {roots : Nat → List (Place × ObjectRef)}

/-! ## Objects finished in order -/

namespace Ordered

variable {l : List Nat} {a b : Nat}

theorem mem_of_edge (h : Ordered g [] l) (ha : a ∈ l) (hab : g.Edge a b) : b ∈ l := by
  induction l with
  | nil => cases ha
  | cons o rest ih =>
    rcases List.mem_cons.mp ha with rfl | ha
    · rcases h.1 b hab with hb | hb
      · exact List.mem_cons_of_mem _ hb
      · cases hb
    · exact List.mem_cons_of_mem _ (ih h.2 ha)

theorem mem_of_reflTransGen (h : Ordered g [] l) (ha : a ∈ l)
    (hab : Relation.ReflTransGen g.Edge a b) : b ∈ l := by
  induction hab with
  | refl => exact ha
  | tail _ hedge ih => exact h.mem_of_edge ih hedge

/-- **No ring is among objects that are finished after all they depend on.** -/
theorem acyclic (h : Ordered g [] l) (hnodup : l.Nodup) (ha : a ∈ l) :
    ¬ Relation.TransGen g.Edge a a := by
  induction l with
  | nil => cases ha
  | cons o rest ih =>
    rw [List.nodup_cons] at hnodup
    rcases List.mem_cons.mp ha with rfl | ha
    · -- A ring through the newest object would lead from older ones back to it.
      intro hring
      obtain ⟨b, hab, hba⟩ := Relation.TransGen.head'_iff.mp hring
      have hb : b ∈ rest := (h.1 b hab).resolve_right List.not_mem_nil
      exact hnodup.1 (h.2.mem_of_reflTransGen hb hba)
    · exact ih h.2 hnodup.2 ha

end Ordered

namespace Team

variable {s s' : Team} {w : Nat} {x : Worker}

/-! ## Rings of workers -/

/-- What a worker has begun leads to what another one takes, where the first one waits for the
second one through any number of others. -/
theorem transGen_of_waitsFor (h : s.Descending g roots) (howned : s.Owned) {target a : Nat}
    (htarget : ∀ o ∈ (s.workers w).begun, Relation.TransGen g.Edge o target)
    (ha : Relation.ReflTransGen s.table.WaitsFor a w) :
    ∀ o ∈ (s.workers a).begun, Relation.TransGen g.Edge o target := by
  induction ha using Relation.ReflTransGen.head_induction_on with
  | refl => exact htarget
  | @head a b hab _ ih =>
    intro o ho
    -- What `a` has begun leads to what it waits for, which `b` has begun.
    obtain ⟨object, hwaits, howner⟩ := FinishTable.waitsFor_iff.mp hab
    have hbegun := ih object (((howned.fits b).owns object).mp howner)
    rw [(howned.fits a).waits] at hwaits
    have hdescent := (Worker.descends_iff hwaits).mp (h.descends a)
    obtain ⟨frame, hframe, rfl⟩ := List.mem_map.mp ho
    exact (hdescent.transGen frame hframe).trans hbegun

/-- **A worker that may not wait takes an object that depends on itself.** -/
theorem cycle_of_closesRing (h : s.Descending g roots) (howned : s.Owned) {ref : ObjectRef}
    (htakes : (s.workers w).Takes ref x) (hneeds : (g ref.id).isSome = true) {owner : Nat}
    (howner : s.table.inProgress.lookup ref.id = some owner)
    (hring : s.table.closesRing w owner = true) :
    g.InTree roots ref.id ∧ Relation.TransGen g.Edge ref.id ref.id := by
  have hdescent := (htakes.descent (h.descends w)).2 hneeds
  have htarget : ∀ o ∈ (s.workers w).begun, Relation.TransGen g.Edge o ref.id := by
    intro o ho
    rw [← htakes.begun] at ho
    obtain ⟨frame, hframe, rfl⟩ := List.mem_map.mp ho
    exact hdescent.transGen frame hframe
  refine ⟨?_, ?_⟩
  · obtain ⟨top, htop, hfinisher, hpath⟩ := hdescent.reflTransGen
    obtain ⟨root, hroot, rfl⟩ := List.mem_map.mp htop
    exact ⟨w, root, hroot, hfinisher, hpath⟩
  · have hchain := FinishTable.reflTransGen_of_leadsTo hring
    exact transGen_of_waitsFor h howned htarget hchain ref.id
      (((howned.fits owner).owns ref.id).mp howner)

/-! ## What is recorded -/

/-- A diagnostic says that an object depends on itself. -/
def Reports (errors : Array Diagnostic) : Prop := ∃ d ∈ errors, d.kind = .dependency

/-- What was recorded about rings. -/
structure Reported (s : Team) (g : DependencyGraph) (roots : Nat → List (Place × ObjectRef)) :
    Prop where
  recorded : Reports s.errors ↔ s.cycles ≠ []
  rings : ∀ edge ∈ s.cycles, g.InTree roots edge.2 ∧ Relation.TransGen g.Edge edge.2 edge.2

theorem reports_noted {errors : Array Diagnostic} {place : Place} {error : Option String} :
    Reports (noted errors place error) ↔ Reports errors := by
  cases error with
  | none => rfl
  | some message => simp [Reports, noted, or_and_right, exists_or]

theorem reported_step (h : s.Reported g roots) (hdescending : s.Descending g roots)
    (howned : s.Owned) (hstep : Step g w s s') : s'.Reported g roots := by
  cases hstep with
  | cycle ref x dependencies t htakes hsome hstart =>
    cases FinishTable.starts_of_eq hstart with
    | cycle owner hopen howner hring =>
      have hcycle := cycle_of_closesRing hdescending howned htakes (by simp [hsome]) howner hring
      refine ⟨?_, fun edge hedge => ?_⟩
      · refine iff_of_true ⟨_, Array.mem_push_self, rfl⟩ (List.cons_ne_nil _ _)
      · rcases List.mem_cons.mp hedge with rfl | hedge
        · exact hcycle
        · exact h.rings edge hedge
  | «return» frame below error hphase hstack => exact ⟨reports_noted.trans h.recorded, h.rings⟩
  | _ => exact ⟨h.recorded, h.rings⟩

theorem Reachable.reported (h : Reachable g roots s) : s.Reported g roots := by
  induction h with
  | start => exact ⟨by simp [Reports, Team.start], by simp [Team.start]⟩
  | step hs hstep ih => exact reported_step ih hs.descending hs.owned hstep

/-! ## When all workers have completed -/

theorem Descending.done_of_completed (h : s.Descending g roots) (hw : (s.workers w).Completed)
    {root : Place × ObjectRef} (hroot : root ∈ roots w) (hneeds : (g root.2.id).isSome = true) :
    s.Done none root.2.id := by
  have hx := (Worker.descends_iff_of_walking hw.phase).mp (h.descends w)
  rw [hw.roots, hw.stack] at hx
  exact Level.done_of_mem hx (List.mem_map_of_mem hroot) hneeds

/-- **A ring is reported**, whichever workers share it. -/
theorem Reachable.cycles_ne_nil (h : Reachable g roots s) (hdone : ∀ w, (s.workers w).Completed)
    {o : Nat} (htree : g.InTree roots o) (hring : Relation.TransGen g.Edge o o) :
    s.cycles ≠ [] := by
  intro hnone
  obtain ⟨w, root, hroot, hneeds, hpath⟩ := htree
  have hordered := h.descending.ordered
  rw [hnone] at hordered
  have hroot : root.2.id ∈ s.table.finished := by
    rcases h.descending.done_of_completed (hdone w) hroot hneeds with hfinished | hcycle
    · exact hfinished
    · rw [hnone] at hcycle
      cases hcycle
  have ho : o ∈ s.table.finished := hordered.mem_of_reflTransGen hroot hpath
  exact hordered.acyclic h.descending.nodup ho hring

/-- In the end a dependency diagnostic stands for a ring, and a ring for a diagnostic. -/
theorem Reachable.dependency_iff (h : Reachable g roots s)
    (hdone : ∀ w, (s.workers w).Completed) : (∃ d ∈ s.errors, d.kind = .dependency) ↔
      ∃ o, g.InTree roots o ∧ Relation.TransGen g.Edge o o := by
  refine Iff.trans h.reported.recorded ⟨fun hcycles => ?_, ?_⟩
  · obtain ⟨edge, hedge⟩ := List.exists_mem_of_ne_nil _ hcycles
    exact ⟨edge.2, h.reported.rings edge hedge⟩
  · rintro ⟨o, htree, hring⟩
    exact h.cycles_ne_nil hdone htree hring

/-- What workers say about rings is so. -/
structure VerdictExact (s : Team) (g : DependencyGraph) (roots : Nat → List (Place × ObjectRef)) :
    Prop where
  /-- In the end a dependency diagnostic stands for a ring, and a ring for a diagnostic. -/
  recorded : (∀ w, (s.workers w).Completed) →
    ((∃ d ∈ s.errors, d.kind = .dependency) ↔
      ∃ o, g.InTree roots o ∧ Relation.TransGen g.Edge o o)
  /-- Nobody is refused to wait where there is no ring. -/
  allowed : (∀ o, g.InTree roots o → ¬ Relation.TransGen g.Edge o o) →
    ∀ w ref x, (s.workers w).Takes ref x → (g ref.id).isSome = true →
      (s.table.start ref.id w).1 ≠ .cycle

/-- **The verdict on rings is exact**, whatever the order of the steps. -/
theorem Reachable.verdict_exact (h : Reachable g roots s) : s.VerdictExact g roots where
  recorded hdone := h.dependency_iff hdone
  allowed hacyclic w ref x htakes hneeds hcycle := by
    have hstarts := s.table.starts ref.id w
    rw [hcycle] at hstarts
    generalize (s.table.start ref.id w).2 = t at hstarts
    cases hstarts with
    | cycle owner hopen howner hring =>
      obtain ⟨htree, hself⟩ :=
        cycle_of_closesRing h.descending h.owned htakes hneeds howner hring
      exact hacyclic ref.id htree hself

/-- Two workers come upon the ring from both sides, and one of them reports it. -/
theorem pair_completes :
    ∃ s, Reachable pair pairRoots s ∧ (∀ w, (s.workers w).Completed) ∧
      ∃ d ∈ s.errors, d.kind = .dependency := by
  have h₀ : Reachable pair pairRoots (start pairRoots) := .start
  have h₁ := h₀.step (.begin ⟨0, "A"⟩ _ _ _ (.root _ _ rfl rfl rfl) rfl rfl : Step pair 0 _ _)
  have h₂ := h₁.step (.begin ⟨1, "B"⟩ _ _ _ (.root _ _ rfl rfl rfl) rfl rfl : Step pair 1 _ _)
  have h₃ := h₂.step
    (.wait ⟨1, "B"⟩ _ _ _ (.dependency _ _ _ rfl rfl rfl) rfl rfl : Step pair 0 _ _)
  have h₄ := h₃.step
    (.cycle ⟨0, "A"⟩ _ _ _ (.dependency _ _ _ rfl rfl rfl) rfl rfl : Step pair 1 _ _)
  have h₅ := h₄.step (.call _ _ rfl rfl rfl : Step pair 1 _ _)
  have h₆ := h₅.step (.return _ _ none rfl rfl : Step pair 1 _ _)
  have h₇ := h₆.step (.finish _ _ rfl rfl : Step pair 1 _ _)
  have h₈ := h₇.step (.announce 1 rfl : Step pair 1 _ _)
  have h₉ := h₈.step (.wake 1 rfl List.mem_cons_self : Step pair 0 _ _)
  have h₁₀ := h₉.step (.goOn 1 rfl : Step pair 0 _ _)
  have h₁₁ := h₁₀.step (.call _ _ rfl rfl rfl : Step pair 0 _ _)
  have h₁₂ := h₁₁.step (.return _ _ none rfl rfl : Step pair 0 _ _)
  have h₁₃ := h₁₂.step (.finish _ _ rfl rfl : Step pair 0 _ _)
  have h₁₄ := h₁₃.step (.announce 0 rfl : Step pair 0 _ _)
  refine ⟨_, h₁₄, fun w => ?_, _, Array.mem_push_self, rfl⟩
  rcases w with _ | _ | w
  · exact ⟨rfl, rfl, rfl⟩
  · exact ⟨rfl, rfl, rfl⟩
  · exact ⟨rfl, rfl, rfl⟩

theorem verdict_exact_pair :
    ∃ s, Reachable pair pairRoots s ∧ (∀ w, (s.workers w).Completed) ∧
      s.VerdictExact pair pairRoots ∧ ∃ d ∈ s.errors, d.kind = .dependency := by
  obtain ⟨s, hs, hdone, hreports⟩ := pair_completes
  exact ⟨s, hs, hdone, hs.verdict_exact, hreports⟩

end Team

end ResourceTree
