import ResourceTree.Proofs.Finish.Ownership

/-!
# How workers go down

At every level of its descent, a worker has yet to look at an object, or it is done with it, or that
is the object that it is busy with one level below. So the objects that it has begun are a path of
dependencies, and an object is finished only after all that it depends on, but for what nobody could
wait for.

* `DependencyGraph.Edge`, `DependencyGraph.InTree`;
* `Level`, `Descent`: one level, and all levels of a worker;
* **`Descent.transGen`**: whatever a worker has begun depends on what it is busy with;
* `Ordered`: objects finished after what they depend on;
* `Team.Descending`, **`Reachable.descending`**: every step keeps all that.
-/

namespace ResourceTree

namespace DependencyGraph

/-- One object depends on another one, and both need finishing. -/
def Edge (g : DependencyGraph) (a b : Nat) : Prop :=
  ∃ dependencies, g a = some dependencies ∧ ∃ ref ∈ dependencies, ref.id = b ∧ (g b).isSome = true

/-- An object of the tree leads to the object, and both need finishing. -/
def InTree (g : DependencyGraph) (roots : Nat → List (Place × ObjectRef)) (o : Nat) : Prop :=
  ∃ w, ∃ root ∈ roots w, (g root.2.id).isSome = true ∧ Relation.ReflTransGen g.Edge root.2.id o

end DependencyGraph

variable {g : DependencyGraph} {ref : ObjectRef} {all todo tree : List ObjectRef}
  {now : Option Nat} {stack below : List Frame} {frame : Frame} {o : Nat}

/-! ## One level -/

/-- Each object of one level that needs finishing is yet to be looked at, or is done with, or is the
one that the worker is busy with. -/
structure Level (g : DependencyGraph) (done : Nat → Prop) (all todo : List ObjectRef)
    (now : Option Nat) : Prop where
  sub : todo ⊆ all
  busy : ∀ o, now = some o → (g o).isSome = true ∧ ∃ ref ∈ all, ref.id = o
  covered : ∀ ref ∈ all, (g ref.id).isSome = true →
    ref ∈ todo ∨ done ref.id ∨ now = some ref.id

namespace Level

variable {done done' : Nat → Prop}

theorem begin (all : List ObjectRef) : Level g done all all none where
  sub := List.Subset.refl all
  busy := by simp
  covered _ href _ := .inl href

theorem mono (h : Level g done all todo now) (hdone : ∀ o, done o → done' o) :
    Level g done' all todo now where
  sub := h.sub
  busy := h.busy
  covered ref href hsome := (h.covered ref href hsome).imp id fun hrest => hrest.imp (hdone _) id

theorem skip (h : Level g done all (ref :: todo) none) (hnone : g ref.id = none) :
    Level g done all todo none where
  sub := List.Subset.trans (List.subset_cons_self _ _) h.sub
  busy := by simp
  covered other hother hsome := by
    rcases h.covered other hother hsome with hmem | hrest
    · rcases List.mem_cons.mp hmem with rfl | hmem
      · simp [hnone] at hsome
      · exact .inl hmem
    · exact .inr hrest

theorem take (h : Level g done all (ref :: todo) none) (hsome : (g ref.id).isSome = true) :
    Level g done all todo (some ref.id) where
  sub := List.Subset.trans (List.subset_cons_self _ _) h.sub
  busy o ho := by
    obtain rfl : ref.id = o := Option.some.inj ho
    exact ⟨hsome, ref, h.sub List.mem_cons_self, rfl⟩
  covered other hother hneeds := by
    rcases h.covered other hother hneeds with hmem | hdone | hnow
    · rcases List.mem_cons.mp hmem with rfl | hmem
      · exact .inr (.inr rfl)
      · exact .inl hmem
    · exact .inr (.inl hdone)
    · cases hnow

theorem drop (h : Level g done all todo (some o)) (ho : done o) : Level g done all todo none where
  sub := h.sub
  busy := by simp
  covered ref href hsome := by
    rcases h.covered ref href hsome with hmem | hdone | hnow
    · exact .inl hmem
    · exact .inr (.inl hdone)
    · exact .inr (.inl (Option.some.inj hnow ▸ ho))

theorem done_of_mem (h : Level g done all [] none) (href : ref ∈ all)
    (hsome : (g ref.id).isSome = true) : done ref.id := by
  rcases h.covered ref href hsome with hmem | hdone | hnow
  · cases hmem
  · exact hdone
  · cases hnow

/-- The object of a level depends on what the worker is busy with there. -/
theorem edge {p : Nat} (h : Level g done all todo (some o)) (hp : g p = some all) : g.Edge p o := by
  obtain ⟨hneeds, ref, href, hid⟩ := h.busy o rfl
  exact ⟨all, hp, ref, href, hid, hneeds⟩

end Level

/-! ## All levels -/

/-- All levels of a worker, from what it is busy with up to the tree. Each level below the tree
belongs to an object, which is what the worker is busy with one level above. -/
def Descent (g : DependencyGraph) (done : Option Nat → Nat → Prop) (tree todo : List ObjectRef) :
    Option Nat → List Frame → Prop
  | now, [] => Level g (done none) tree todo now
  | now, frame :: below =>
    (∃ dependencies, g frame.object.id = some dependencies ∧
      Level g (done (some frame.object.id)) dependencies frame.todo now) ∧
    Descent g done tree todo (some frame.object.id) below

namespace Descent

variable {done done' : Option Nat → Nat → Prop}

theorem mono (h : Descent g done tree todo now stack) (hdone : ∀ p o, done p o → done' p o) :
    Descent g done' tree todo now stack := by
  induction stack generalizing now with
  | nil => exact Level.mono h (hdone none)
  | cons frame below ih =>
    obtain ⟨⟨dependencies, hsome, hlevel⟩, hbelow⟩ := h
    exact ⟨⟨dependencies, hsome, hlevel.mono (hdone _)⟩, ih hbelow⟩

theorem drop (h : Descent g done tree todo (some o) stack)
    (ho : done (innermost? stack) o) :
    Descent g done tree todo none stack := by
  cases stack with
  | nil => exact Level.drop h ho
  | cons frame below =>
    obtain ⟨⟨dependencies, hsome, hlevel⟩, hbelow⟩ := h
    exact ⟨⟨dependencies, hsome, hlevel.drop ho⟩, hbelow⟩

theorem isSome_of_mem (h : Descent g done tree todo now stack) :
    ∀ frame ∈ stack, (g frame.object.id).isSome = true := by
  induction stack generalizing now with
  | nil => simp
  | cons frame below ih =>
    obtain ⟨⟨dependencies, hsome, -⟩, hbelow⟩ := h
    intro other hother
    rcases List.mem_cons.mp hother with rfl | hother
    · simp [hsome]
    · exact ih hbelow other hother

/-- **Whatever was begun depends on what the worker is busy with.** -/
theorem transGen (h : Descent g done tree todo (some o) stack) :
    ∀ frame ∈ stack, Relation.TransGen g.Edge frame.object.id o := by
  induction stack generalizing o with
  | nil => simp
  | cons frame below ih =>
    obtain ⟨⟨dependencies, hsome, hlevel⟩, hbelow⟩ := h
    intro other hother
    rcases List.mem_cons.mp hother with rfl | hother
    · exact .single (hlevel.edge hsome)
    · exact .tail (ih hbelow other hother) (hlevel.edge hsome)

theorem reflTransGen (h : Descent g done tree todo (some o) stack) :
    ∃ ref ∈ tree, (g ref.id).isSome = true ∧ Relation.ReflTransGen g.Edge ref.id o := by
  induction stack generalizing o with
  | nil =>
    obtain ⟨hneeds, ref, href, rfl⟩ := Level.busy h o rfl
    exact ⟨ref, href, hneeds, .refl⟩
  | cons frame below ih =>
    obtain ⟨⟨dependencies, hsome, hlevel⟩, hbelow⟩ := h
    obtain ⟨top, htop, hneeds, hpath⟩ := ih hbelow
    exact ⟨top, htop, hneeds, hpath.tail (hlevel.edge hsome)⟩

end Descent

namespace Worker

variable {done : Option Nat → Nat → Prop} {x y : Worker}

/-- All levels of a worker that is given the objects of `tree`. -/
def Descends (x : Worker) (g : DependencyGraph) (done : Option Nat → Nat → Prop)
    (tree : List ObjectRef) : Prop :=
  Descent g done tree (x.roots.map Prod.snd) x.phase.awaits x.stack

theorem descends_iff (hnow : x.phase.awaits = now) :
    x.Descends g done tree ↔ Descent g done tree (x.roots.map Prod.snd) now x.stack := by
  unfold Descends
  rw [hnow]

theorem descends_iff_of_walking (hphase : x.phase = .walking) :
    x.Descends g done tree ↔ Descent g done tree (x.roots.map Prod.snd) none x.stack :=
  descends_iff (by rw [hphase]; rfl)

theorem Descends.turn (h : x.Descends g done tree) (p : Phase)
    (hawaits : p.awaits = x.phase.awaits) : Descends { x with phase := p } g done tree :=
  (descends_iff hawaits).mpr h

/-- The object that a worker takes is one of its innermost level. -/
theorem Takes.descent (h : x.Takes ref y) (hx : x.Descends g done tree) :
    (g ref.id = none → Descent g done tree (y.roots.map Prod.snd) none y.stack) ∧
    ((g ref.id).isSome = true →
      Descent g done tree (y.roots.map Prod.snd) (some ref.id) y.stack) := by
  rw [descends_iff_of_walking h.walking.1] at hx
  cases h with
  | dependency frame todo below hphase hstack htodo =>
    rw [hstack] at hx
    obtain ⟨⟨dependencies, hsome, hlevel⟩, hbelow⟩ := hx
    rw [htodo] at hlevel
    exact ⟨fun hnone => ⟨⟨dependencies, hsome, hlevel.skip hnone⟩, hbelow⟩,
      fun hneeds => ⟨⟨dependencies, hsome, hlevel.take hneeds⟩, hbelow⟩⟩
  | root place roots hphase hstack hroots =>
    rw [hstack, hroots] at hx
    rw [hstack]
    exact ⟨fun hnone => Level.skip hx hnone, fun hneeds => Level.take hx hneeds⟩

end Worker

/-! ## The order of what is finished -/

/-- Objects, newest first, are finished after all that they depend on, but for what nobody could
wait for. -/
def Ordered (g : DependencyGraph) (cycles : List (Option Nat × Nat)) : List Nat → Prop
  | [] => True
  | o :: rest => (∀ b, g.Edge o b → b ∈ rest ∨ (some o, b) ∈ cycles) ∧ Ordered g cycles rest

theorem Ordered.mono {cycles cycles' : List (Option Nat × Nat)} {l : List Nat}
    (h : Ordered g cycles l) (hcycles : cycles ⊆ cycles') : Ordered g cycles' l := by
  induction l with
  | nil => trivial
  | cons o rest ih => exact ⟨fun b hb => (h.1 b hb).imp id (hcycles ·), ih h.2⟩

/-! ## The team -/

namespace Team

variable {roots : Nat → List (Place × ObjectRef)} {s s' : Team} {w : Nat} {x : Worker}

/-- Nobody looks again at the object, which was met below `p`. -/
def Done (s : Team) (p : Option Nat) (o : Nat) : Prop :=
  o ∈ s.table.finished ∨ (p, o) ∈ s.cycles

/-- How the workers go down, and what they leave behind. -/
structure Descending (s : Team) (g : DependencyGraph) (roots : Nat → List (Place × ObjectRef)) :
    Prop where
  descends : ∀ w, (s.workers w).Descends g s.Done ((roots w).map Prod.snd)
  ordered : Ordered g s.cycles s.table.finished
  nodup : s.table.finished.Nodup

theorem descending_start : (start roots).Descending g roots where
  descends _ := Level.begin _
  ordered := trivial
  nodup := List.nodup_nil

theorem Descending.set (h : s.Descending g roots) (hworkers : s'.workers = s.workers)
    (hfinished : s.table.finished ⊆ s'.table.finished) (hcycles : s.cycles ⊆ s'.cycles)
    (hx : x.Descends g s'.Done ((roots w).map Prod.snd))
    (hordered : Ordered g s'.cycles s'.table.finished) (hnodup : s'.table.finished.Nodup) :
    (s'.set w x).Descending g roots where
  descends v := by
    rw [workers_set]
    split_ifs with hv
    · rw [hv]
      exact hx
    · rw [hworkers]
      exact (h.descends v).mono fun p o ho => ho.imp (hfinished ·) (hcycles ·)
  ordered := hordered
  nodup := hnodup

theorem Descending.quiet (h : s.Descending g roots) (hworkers : s'.workers = s.workers)
    (hfinished : s'.table.finished = s.table.finished) (hcycles : s'.cycles = s.cycles)
    (hx : x.Descends g s.Done ((roots w).map Prod.snd)) : (s'.set w x).Descending g roots := by
  have hdone : s'.Done = s.Done := by
    unfold Done
    rw [hfinished, hcycles]
  refine h.set hworkers ?_ ?_ ?_ ?_ ?_
  · rw [hfinished]
    exact List.Subset.refl _
  · rw [hcycles]
    exact List.Subset.refl _
  · rw [hdone]
    exact hx
  · rw [hfinished, hcycles]
    exact h.ordered
  · rw [hfinished]
    exact h.nodup

theorem Descending.finish (h : s.Descending g roots) (howned : s.Owned)
    (hphase : (s.workers w).phase = .ending) (hstack : (s.workers w).stack = frame :: below) :
    (Team.set { s with table := s.table.finish frame.object.id } w
      { s.workers w with
        stack := below, phase := .announcing frame.object.id }).Descending g roots := by
  -- The object is still being finished, and nothing is finished and being finished.
  have hnew : frame.object.id ∉ s.table.finished := fun hmem => by
    have howner : s.table.inProgress.lookup frame.object.id = some w := by
      rw [(howned.fits w).owns, Worker.begun, hstack]
      exact List.mem_cons_self
    rw [howned.apart _ hmem] at howner
    cases howner
  have hx := (Worker.descends_iff (by rw [hphase]; rfl : _ = none)).mp (h.descends w)
  rw [hstack] at hx
  obtain ⟨⟨dependencies, hsome, hlevel⟩, hbelow⟩ := hx
  obtain ⟨frame', below', hstack', htodo⟩ := (howned.fits w).closing (.inr hphase)
  rw [hstack] at hstack'
  obtain ⟨rfl, rfl⟩ := List.cons.inj hstack'
  rw [htodo] at hlevel
  refine h.set rfl (List.subset_cons_self _ _) (List.Subset.refl _) ?_ ⟨fun b hb => ?_, h.ordered⟩
    (List.nodup_cons.mpr ⟨hnew, h.nodup⟩)
  · refine Descent.drop (hbelow.mono fun p o ho => ?_) (.inl List.mem_cons_self)
    exact ho.imp (List.mem_cons_of_mem _) id
  · obtain ⟨dependencies', hsome', ref, href, rfl, hneeds⟩ := hb
    obtain rfl : dependencies' = dependencies := Option.some.inj (hsome'.symm.trans hsome)
    exact hlevel.done_of_mem href hneeds

/-- **Every step keeps how the workers go down.** -/
theorem descending_step (h : s.Descending g roots) (howned : s.Owned) (hstep : Step g w s s') :
    s'.Descending g roots := by
  cases hstep with
  | skip ref x htakes hnone =>
    have hx := (htakes.descent (h.descends w)).1 hnone
    exact h.quiet rfl rfl rfl ((Worker.descends_iff_of_walking htakes.walking.2).mpr hx)
  | finished ref x dependencies t htakes hsome hstart =>
    have hx := (htakes.descent (h.descends w)).2 (by simp [hsome])
    cases FinishTable.starts_of_eq hstart with
    | finished hfinished =>
      refine h.quiet rfl rfl rfl ((Worker.descends_iff_of_walking htakes.walking.2).mpr ?_)
      exact hx.drop (.inl hfinished)
  | cycle ref x dependencies t htakes hsome hstart =>
    have hx := (htakes.descent (h.descends w)).2 (by simp [hsome])
    cases FinishTable.starts_of_eq hstart with
    | cycle owner hopen howner hring =>
      refine h.set rfl (List.Subset.refl _) (List.subset_cons_self _ _) ?_
        (h.ordered.mono (List.subset_cons_self _ _)) h.nodup
      rw [Worker.descends_iff_of_walking htakes.walking.2]
      refine Descent.drop (hx.mono fun p o ho => ?_) (.inr List.mem_cons_self)
      exact ho.imp id (List.mem_cons_of_mem _)
  | wait ref x dependencies t htakes hsome hstart =>
    have hx := (htakes.descent (h.descends w)).2 (by simp [hsome])
    cases FinishTable.starts_of_eq hstart with
    | wait owner hopen howner hring => exact h.quiet rfl rfl rfl hx
  | begin ref x dependencies t htakes hsome hstart =>
    have hx := (htakes.descent (h.descends w)).2 (by simp [hsome])
    cases FinishTable.starts_of_eq hstart with
    | begun hopen hfree =>
      have hwalking : Worker.phase { x with stack := ⟨ref, dependencies⟩ :: x.stack } = .walking :=
        htakes.walking.2
      refine h.quiet rfl rfl rfl ((Worker.descends_iff_of_walking hwalking).mpr ?_)
      exact ⟨⟨dependencies, hsome, Level.begin dependencies⟩, hx⟩
  | wake object hphase hset =>
    exact h.quiet rfl rfl rfl ((h.descends w).turn (.woken object) (by rw [hphase]; rfl))
  | goOn object hphase =>
    have hx := (Worker.descends_iff (by rw [hphase]; rfl : _ = some object)).mp (h.descends w)
    exact h.quiet rfl rfl rfl (hx.drop (.inl ((howned.fits w).passed _ (.inl hphase))))
  | call frame below hphase hstack htodo =>
    exact h.quiet rfl rfl rfl ((h.descends w).turn .calling (by rw [hphase]; rfl))
  | «return» frame below error hphase hstack =>
    exact h.quiet rfl rfl rfl ((h.descends w).turn .ending (by rw [hphase]; rfl))
  | finish frame below hphase hstack => exact h.finish howned hphase hstack
  | announce object hphase =>
    exact h.quiet rfl rfl rfl ((h.descends w).turn .walking (by rw [hphase]; rfl))

theorem Reachable.descending (h : Reachable g roots s) : s.Descending g roots := by
  induction h with
  | start => exact descending_start
  | step hs hstep ih => exact descending_step ih hs.owned hstep

end Team

end ResourceTree
