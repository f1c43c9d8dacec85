import ResourceTree.Example.Item
import ResourceTree.Proofs.Compile.Run
import ResourceTree.Proofs.Finish.Verdict

/-!
# A worker alone

`finishObject` is what a worker of a team does while the others rest: it asks the table the same
questions in the same order, and leaves the same table and the same diagnostics.

* `Store.graph`: what the objects of a store depend on;
* `ObjectClass.Steady`: finishing an object does not change what it depends on;
* `Team.Mirrors`: a team stands where a compile stands;
* **`finishObject_steps`**, `carries_finishObject`: a run without a panic is a sequence of steps of
  one worker;
* **`reports_iff_of_run`**: so it reports a ring exactly if there is one.
-/

namespace ResourceTree

variable {σ : Type} [ObjectClass σ]

/-- What the objects of a store depend on, as its handles are. -/
def Store.graph (store : Store σ) : DependencyGraph := fun o =>
  ((store.objects[o]?).join.bind ObjectClass.dependencies).map fun dependencies =>
    dependencies.filterMap (Compile.dependencyObject? store.handles)

/-- Finishing an object does not change what it depends on. -/
def ObjectClass.Steady (σ : Type) [ObjectClass σ] : Prop :=
  ∀ (store : Store σ) (object object' : σ), ObjectClass.finish store object = .ok object' →
    ObjectClass.dependencies object' = ObjectClass.dependencies object

theorem Store.graph_setObject {store : Store σ} {ref : ObjectRef} {object object' : σ}
    (hobject : store.object? ref = some object)
    (hsame : ObjectClass.dependencies object' = ObjectClass.dependencies object) :
    (store.setObject ref object').graph = store.graph := by
  funext o
  unfold graph setObject
  simp only [Array.getElem?_modify]
  split_ifs with ho
  · unfold object? at hobject
    rw [ho] at hobject
    cases hslot : store.objects[o]? with
    | none => rfl
    | some slot =>
      rw [hslot] at hobject
      cases slot with
      | none => rfl
      | some old =>
        obtain rfl : old = object := Option.some.inj hobject
        simp [hsame]
  · rfl

namespace Compile

variable {setting : Setting σ} {p q : Progress σ} {place : Place} {ref : ObjectRef}

/-! ## What the parts of a run leave -/

theorem finishAlone_ok (hsteady : ObjectClass.Steady σ)
    (h : (finishAlone place ref : Action σ Unit).run setting p = (.ok (), q)) :
    q.finishing = p.finishing ∧ q.store.handles = p.store.handles ∧
      q.store.graph = p.store.graph ∧ ∃ error, q.errors = Team.noted p.errors place error := by
  unfold finishAlone at h
  obtain ⟨store, p', hstore, h⟩ := Action.run_bind_ok.mp h
  rw [Action.run_store] at hstore
  cases hstore
  cases hobject : p.store.object? ref with
  | none =>
    simp only [hobject] at h
    cases h
    exact ⟨rfl, rfl, rfl, none, rfl⟩
  | some object =>
    simp only [hobject] at h
    cases hfinish : ObjectClass.finish p.store object with
    | ok object' =>
      simp only [hfinish] at h
      cases h
      exact ⟨rfl, rfl, Store.graph_setObject hobject (hsteady _ _ _ hfinish), none, rfl⟩
    | error failure =>
      simp only [hfinish] at h
      cases failure with
      | error e =>
        cases h
        exact ⟨rfl, rfl, rfl, some e.message, rfl⟩
      | panic panic => cases h

end Compile

namespace Team

variable {g : DependencyGraph} {roots : Nat → List (Place × ObjectRef)} {s s' s'' : Team}
  {w : Nat} {x y : Worker}

/-! ## Steps of one worker -/

/-- A worker comes to stand as `x` while the others rest. -/
structure Arrives (g : DependencyGraph) (w : Nat) (s : Team) (x : Worker) (s' : Team) : Prop where
  steps : Relation.ReflTransGen (Step g w) s s'
  workers : s'.workers = Function.update s.workers w x

theorem Arrives.refl : Arrives g w s (s.workers w) s := ⟨.refl, (Function.update_eq_self _ _).symm⟩

theorem Arrives.one (h : Step g w s s') (hworkers : s'.workers = Function.update s.workers w x) :
    Arrives g w s x s' := ⟨.single h, hworkers⟩

theorem Arrives.trans (h : Arrives g w s x s') (h' : Arrives g w s' y s'') :
    Arrives g w s y s'' where
  steps := h.steps.trans h'.steps
  workers := by rw [h'.workers, h.workers, Function.update_idem]

theorem Arrives.self (h : Arrives g w s x s') : s'.workers w = x := by
  rw [h.workers, Function.update_self]

theorem Arrives.reachable (h : Arrives g w s x s') (hs : Reachable g roots s) :
    Reachable g roots s' := by
  have hsteps := h.steps
  clear h
  induction hsteps with
  | refl => exact hs
  | tail _ hstep ih => exact ih.step hstep

/-- The other workers have begun nothing. -/
def Alone (s : Team) (w : Nat) : Prop := ∀ v, v ≠ w → (s.workers v).stack = []

theorem Arrives.alone (h : Arrives g w s x s') (hs : s.Alone w) : s'.Alone w := by
  intro v hv
  rw [h.workers, Function.update_of_ne hv]
  exact hs v hv

theorem Alone.owner_eq (h : s.Alone w) (howned : s.Owned) {o v : Nat}
    (hv : s.table.inProgress.lookup o = some v) : v = w := by
  by_contra hne
  rw [(howned.fits v).owns, Worker.begun, h v hne] at hv
  cases hv

/-- A worker finishes its innermost object, of which all was looked at. -/
theorem exists_close {frame : Frame} {below : List Frame} (error : Option String)
    (hphase : (s.workers w).phase = .walking) (hstack : (s.workers w).stack = frame :: below)
    (htodo : frame.todo = []) :
    ∃ s', Arrives g w s { s.workers w with stack := below, phase := .walking } s' ∧
      s'.table = s.table.finish frame.object.id ∧
      s'.errors = noted s.errors (s.workers w).place error := by
  have hcall := Arrives.one (Step.call frame below hphase hstack htodo : Step g w s _) rfl
  have hreturn := hcall.trans (.one (.return frame below error (by rw [hcall.self])
    (by rw [hcall.self, hstack])) rfl)
  have hfinish := hreturn.trans (.one (.finish frame below (by rw [hreturn.self])
    (by rw [hreturn.self, hcall.self, hstack])) rfl)
  have hannounce := hfinish.trans (.one (.announce frame.object.id (by rw [hfinish.self])) rfl)
  rw [hfinish.self, hreturn.self, hcall.self] at hannounce
  refine ⟨_, hannounce, rfl, ?_⟩
  simp [set]

theorem Reachable.length_begun_le (h : Reachable g roots s) {n : Nat}
    (hn : ∀ o, (g o).isSome = true → o < n) (w : Nat) : (s.workers w).begun.length ≤ n := by
  have hsub : (s.workers w).begun ⊆ List.range n := by
    intro o ho
    obtain ⟨frame, hframe, rfl⟩ := List.mem_map.mp ho
    exact List.mem_range.mpr (hn _ ((h.descending.descends w).isSome_of_mem frame hframe))
  have hlength := (List.Nodup.subperm (h.owned.fits w).nodup hsub).length_le
  rw [List.length_range] at hlength
  exact hlength

/-! ## The run of a worker alone -/

/-- A team stands where a compile stands that works on the objects of `store`. -/
structure Mirrors (s : Team) (p : Progress σ) (store : Store σ) : Prop where
  table : s.table = p.finishing
  errors : s.errors = p.errors
  handles : p.store.handles = store.handles
  graph : p.store.graph = store.graph

/-- Where a visit of objects leads a compile, a worker alone arrives that takes the object with at
least `depth` objects begun. -/
def Carries (store : Store σ) (roots : Nat → List (Place × ObjectRef)) (place : Place)
    (depth : Nat) (visit : ObjectRef → Action σ Unit) : Prop :=
  ∀ (setting : Setting σ) (p q : Progress σ) (ref : ObjectRef) (s : Team) (x : Worker),
    (visit ref).run setting p = (.ok (), q) → Reachable store.graph roots s →
    s.Alone place.worker → s.Mirrors p store → (s.workers place.worker).Takes ref x →
    x.place = place → depth ≤ x.stack.length →
    ∃ s', Arrives store.graph place.worker s x s' ∧ s'.Mirrors q store

variable {store : Store σ} {setting : Setting σ} {p q : Progress σ} {place : Place} {depth : Nat}

theorem visitDependencies_steps {visit : ObjectRef → Action σ Unit}
    (hvisit : Carries store roots place depth visit) {ref : ObjectRef} {below : List Frame}
    (hx : x.phase = .walking) (hplace : x.place = place) (hdepth : depth ≤ below.length + 1)
    (dependencies : List Value)
    (hrun : (Compile.visitDependencies visit dependencies).run setting p = (.ok (), q))
    (hs : Reachable store.graph roots s) (halone : s.Alone place.worker)
    (hmirrors : s.Mirrors p store)
    (hworker : s.workers place.worker = { x with stack :=
      ⟨ref, dependencies.filterMap (Compile.dependencyObject? store.handles)⟩ :: below }) :
    ∃ s', Arrives store.graph place.worker s { x with stack := ⟨ref, []⟩ :: below } s' ∧
      s'.Mirrors q store := by
  induction dependencies generalizing p s with
  | nil =>
    cases hrun
    exact ⟨s, hworker ▸ .refl, hmirrors⟩
  | cons dependency dependencies ih =>
    have hcons := Action.run_visitDependencies_cons_ok hrun
    rw [hmirrors.handles] at hcons
    cases hother : Compile.dependencyObject? store.handles dependency with
    | none =>
      rw [List.filterMap_cons_none hother] at hworker
      simp only [hother] at hcons
      exact ih hcons hs halone hmirrors hworker
    | some other =>
      rw [List.filterMap_cons_some hother] at hworker
      simp only [hother] at hcons
      obtain ⟨p', hfirst, hrest⟩ := hcons
      have htakes : (s.workers place.worker).Takes other { x with stack :=
          ⟨ref, dependencies.filterMap (Compile.dependencyObject? store.handles)⟩ :: below } := by
        rw [hworker]
        exact .dependency ⟨ref, _ :: _⟩ _ below hx rfl rfl
      obtain ⟨s₁, hfirst', hmirrors'⟩ :=
        hvisit setting p p' other s _ hfirst hs halone hmirrors htakes hplace hdepth
      obtain ⟨s₂, hrest', hmirrors''⟩ := ih hrest (hfirst'.reachable hs) (hfirst'.alone halone)
        hmirrors' hfirst'.self
      exact ⟨s₂, hfirst'.trans hrest', hmirrors''⟩

/-- An object that a worker begins, from there until it is finished. -/
theorem begin_steps (hsteady : ObjectClass.Steady σ) {visit : ObjectRef → Action σ Unit}
    (hvisit : Carries store roots place (depth + 1) visit) {ref : ObjectRef}
    {dependencies : List Value} {t : FinishTable}
    (hrun : (do Compile.visitDependencies visit dependencies; Compile.finishAlone place ref :
      Action σ Unit).run setting { p with finishing := t } = (.ok (), q))
    (hs : Reachable store.graph roots s) (halone : s.Alone place.worker)
    (hmirrors : s.Mirrors p store) (htakes : (s.workers place.worker).Takes ref x)
    (hplace : x.place = place) (hdepth : depth ≤ x.stack.length)
    (hgraph : store.graph ref.id =
      some (dependencies.filterMap (Compile.dependencyObject? store.handles)))
    (hstart : s.table.start ref.id place.worker = (.begun, t)) :
    ∃ s', Arrives store.graph place.worker s x s' ∧
      s'.Mirrors { q with finishing := q.finishing.finish ref.id } store := by
  have hwalking := htakes.walking.2
  obtain ⟨_, p', hdependencies, hfinish⟩ := Action.run_bind_ok.mp hrun
  have hbegin := Arrives.one
    (.begin ref x _ t htakes hgraph hstart : Step store.graph place.worker s _) rfl
  obtain ⟨s₁, hvisited, hmirrors₁⟩ := visitDependencies_steps hvisit hwalking hplace
    (Nat.add_le_add_right hdepth 1) dependencies hdependencies (hbegin.reachable hs)
    (hbegin.alone halone) ⟨rfl, hmirrors.errors, hmirrors.handles, hmirrors.graph⟩ hbegin.self
  have hopen := hbegin.trans hvisited
  obtain ⟨htable, hhandles, hkept, error, herrors⟩ := Compile.finishAlone_ok hsteady hfinish
  obtain ⟨s₂, hclose, htable₂, herrors₂⟩ := exists_close (g := store.graph) (w := place.worker)
    (s := s₁) error (by rw [hopen.self]; exact hwalking) (by rw [hopen.self]) rfl
  have hdone := hopen.trans hclose
  rw [hopen.self, hwalking.symm] at hdone
  refine ⟨s₂, hdone, ?_, ?_, hhandles.trans hmirrors₁.handles, hkept.trans hmirrors₁.graph⟩
  · rw [htable₂, hmirrors₁.table, htable]
  · rw [herrors₂, hmirrors₁.errors, herrors, hopen.self, hplace]

/-- **A run without a panic is a sequence of steps of one worker**, and ends where they end. -/
theorem finishObject_steps (hsteady : ObjectClass.Steady σ) {n : Nat}
    (hn : ∀ o, (store.graph o).isSome = true → o < n) (levels : Nat)
    (hlevels : n < levels + depth) :
    Carries store roots place depth (Compile.finishObject place levels) := by
  induction levels generalizing depth with
  | zero =>
    intro setting p q ref s x hrun hs halone hmirrors htakes hplace hdepth
    have hlength := hs.length_begun_le hn place.worker
    rw [← htakes.begun, Worker.begun, List.length_map] at hlength
    omega
  | succ levels ih =>
    intro setting p q ref s x hrun hs halone hmirrors htakes hplace hdepth
    unfold Compile.finishObject at hrun
    obtain ⟨store', p₀, hstore, hrun⟩ := Action.run_bind_ok.mp hrun
    rw [Action.run_store] at hstore
    cases hstore
    have hgraph : store.graph ref.id =
        ((p.store.object? ref).bind ObjectClass.dependencies).map fun dependencies =>
          dependencies.filterMap (Compile.dependencyObject? store.handles) := by
      rw [← hmirrors.graph, ← hmirrors.handles]
      rfl
    cases hdependencies : (p.store.object? ref).bind ObjectClass.dependencies with
    | none =>
      rw [hdependencies] at hgraph
      simp only [hdependencies] at hrun
      cases hrun
      exact ⟨_, .one (.skip ref x htakes hgraph) rfl, hmirrors.table, hmirrors.errors,
        hmirrors.handles, hmirrors.graph⟩
    | some dependencies =>
      rw [hdependencies] at hgraph
      simp only [hdependencies] at hrun
      obtain ⟨verdict, p₁, hstart, hrun⟩ := Action.run_bind_ok.mp hrun
      rw [Action.run_withTable, ← hmirrors.table] at hstart
      obtain ⟨rfl, rfl⟩ : (s.table.start ref.id place.worker).1 = verdict ∧
          { p with finishing := (s.table.start ref.id place.worker).2 } = p₁ := by
        cases hstart
        exact ⟨rfl, rfl⟩
      cases hasked : s.table.start ref.id place.worker with
      | mk verdict t =>
        rw [hasked] at hrun
        cases verdict with
        | finished =>
          cases hrun
          exact ⟨_, .one (.finished ref x _ t htakes hgraph hasked) rfl, rfl, hmirrors.errors,
            hmirrors.handles, hmirrors.graph⟩
        | cycle =>
          cases hrun
          refine ⟨_, .one (.cycle ref x _ t htakes hgraph hasked) rfl, rfl, ?_, hmirrors.handles,
            hmirrors.graph⟩
          rw [← hmirrors.errors, ← hplace]
          rfl
        | wait =>
          cases FinishTable.starts_of_eq hasked with
          | wait owner hopen howner hring =>
            -- A worker alone would wait for itself.
            rw [halone.owner_eq hs.owned howner] at hring
            simp [FinishTable.closesRing, FinishTable.leadsTo] at hring
        | begun =>
          obtain ⟨p₂, hwork, hafter⟩ := Action.run_andFinally_ok hrun
          cases hafter
          exact begin_steps hsteady (ih (by omega)) hwork hs halone hmirrors htakes hplace hdepth
            hgraph hasked

/-- **So many levels as a compile takes are enough**, whatever the objects depend on. -/
theorem carries_finishObject (hsteady : ObjectClass.Steady σ) (store : Store σ) :
    Carries store roots place 0 (Compile.finishObject place (store.objects.size + 1)) := by
  refine finishObject_steps hsteady (fun o ho => ?_) _ (Nat.lt_succ_self _)
  by_contra hsize
  unfold Store.graph at ho
  rw [Array.getElem?_eq_none (Nat.le_of_not_lt hsize)] at ho
  cases ho

/-! ## A compile by one worker -/

/-- One worker is given objects that are all at one place. -/
def given (place : Place) (refs : List ObjectRef) : Nat → List (Place × ObjectRef) := fun w =>
  if w = place.worker then refs.map fun ref => (place, ref) else []

theorem forM_steps {visit : ObjectRef → Action σ Unit} (hvisit : Carries store roots place 0 visit)
    (refs : List ObjectRef) (hrun : (refs.forM visit).run setting p = (.ok (), q))
    (hs : Reachable store.graph roots s) (halone : s.Alone place.worker)
    (hmirrors : s.Mirrors p store) (hphase : (s.workers place.worker).phase = .walking)
    (hstack : (s.workers place.worker).stack = [])
    (hroots : (s.workers place.worker).roots = refs.map fun ref => (place, ref)) :
    ∃ s' x, Arrives store.graph place.worker s x s' ∧ x.Completed ∧ s'.Mirrors q store := by
  induction refs generalizing p s with
  | nil =>
    cases hrun
    exact ⟨s, _, .refl, ⟨hroots, hstack, hphase⟩, hmirrors⟩
  | cons ref refs ih =>
    rw [List.forM] at hrun
    obtain ⟨u, p', hfirst, hrest⟩ := Action.run_bind_ok.mp hrun
    have htakes := Worker.Takes.root place _ hphase hstack hroots
    obtain ⟨s₁, hfirst', hmirrors'⟩ := hvisit setting p p' ref s _ hfirst hs halone hmirrors htakes
      rfl (Nat.zero_le _)
    obtain ⟨s₂, x, hrest', hdone, hmirrors''⟩ := ih hrest (hfirst'.reachable hs)
      (hfirst'.alone halone) hmirrors' (by rw [hfirst'.self]; exact hphase)
      (by rw [hfirst'.self]; exact hstack) (by rw [hfirst'.self])
    exact ⟨s₂, x, hfirst'.trans hrest', hdone, hmirrors''⟩

/-- **A compile by one worker reports a ring exactly if there is one** that an object leads to. -/
theorem reports_iff_of_run (hsteady : ObjectClass.Steady σ) (refs : List ObjectRef)
    (hrun : (refs.forM (Compile.finishObject place (p.store.objects.size + 1))).run setting p =
      (.ok (), q)) (htable : p.finishing = .empty) (herrors : p.errors = #[]) :
    Reports q.errors ↔ ∃ o, p.store.graph.InTree (given place refs) o ∧
      Relation.TransGen p.store.graph.Edge o o := by
  have hstart : Reachable p.store.graph (given place refs) (start (given place refs)) := .start
  obtain ⟨s, x, harrives, hdone, hmirrors⟩ := forM_steps
    (carries_finishObject hsteady p.store) refs hrun hstart (fun v _ => rfl)
    ⟨htable.symm, herrors.symm, rfl, rfl⟩ rfl rfl (if_pos rfl)
  rw [← hmirrors.errors]
  refine (harrives.reachable hstart).dependency_iff fun w => ?_
  rw [harrives.workers, Function.update_apply]
  split_ifs with hw
  · exact hdone
  · exact ⟨if_neg hw, rfl, rfl⟩

end Team

/-- A thing waits for the same values before and after it is finished. -/
theorem Item.steady : ObjectClass.Steady Item := by
  intro store object object' h
  cases object with
  | thing t =>
    simp only [ObjectClass.finish, Thing.finish] at h
    cases hcheck : t.check .finish with
    | error failure =>
      rw [hcheck] at h
      cases h
    | ok u =>
      rw [hcheck] at h
      by_cases hready : t.after.all (isFinishedThing store) = true
      · simp only [hready, if_true] at h
        cases h
        rfl
      · simp only [hready, Bool.false_eq_true, if_false] at h
        cases h
  | probe p =>
    cases h
    rfl
  | spriteSheet s =>
    cases h
    rfl

end ResourceTree
