import ResourceTree.Proofs.Finish.Verdict
import ResourceTree.Proofs.Finish.Work

/-!
# Objects are finished once, after what they depend on

A callback has been called for the objects whose callbacks have returned, and for the innermost
object of every worker that is calling; it has returned for what is finished, and for the innermost
object of every worker that is ending. Both are known of one worker only, so nothing is called
twice. Whoever begins an object comes to call it, so nothing is left out.

* `Team.Called`, **`Reachable.calls`**: which callbacks were called and which have returned;
* `Team.Refused`: what is left behind where nobody could wait;
* `Team.FinishedOnce`, **`Reachable.finished_once`**: every object that the tree leads to is
  finished once, after all it depends on but for what a diagnostic says.
-/

namespace ResourceTree

variable {g : DependencyGraph} {roots : Nat → List (Place × ObjectRef)}

/-- What a finished object depends on is finished, unless nobody could wait for it. -/
theorem Ordered.exists_done {cycles : List (Option Nat × Nat)} {l : List Nat} {a b : Nat}
    (h : Ordered g cycles l) (ha : a ∈ l) (hab : g.Edge a b) : b ∈ l ∨ (some a, b) ∈ cycles := by
  induction l with
  | nil => cases ha
  | cons o rest ih =>
    rcases List.mem_cons.mp ha with rfl | ha
    · exact (h.1 b hab).imp (List.mem_cons_of_mem _) id
    · exact (ih h.2 ha).imp (List.mem_cons_of_mem _) id

namespace Team

variable {s s' : Team} {v w o : Nat} {x : Worker}

/-! ## Calls and returns -/

/-- The worker `w` has `o` as its innermost object and is in the phase `p`. -/
def At (s : Team) (p : Phase) (o w : Nat) : Prop :=
  (s.workers w).phase = p ∧ innermost? (s.workers w).stack = some o

/-- Which callbacks were called, and which have returned. -/
structure Called (s : Team) : Prop where
  nodup : s.called.Nodup
  called : ∀ o, o ∈ s.called ↔ o ∈ s.returned ∨ ∃ w, s.At .calling o w
  returned : ∀ o, o ∈ s.returned ↔ o ∈ s.table.finished ∨ ∃ w, s.At .ending o w

theorem called_start : (start roots).Called := by
  refine ⟨List.nodup_nil, fun o => ?_, fun o => ?_⟩
  · simp [start, At]
  · simp [start, At, FinishTable.empty]

theorem at_set {p : Phase} (v : Nat) : (s.set w x).At p o v ↔
    if v = w then x.phase = p ∧ innermost? x.stack = some o else s.At p o v := by
  unfold At
  rw [workers_set]
  split_ifs <;> rfl

theorem exists_at_set {p : Phase} (hx : x.phase ≠ p) (hw : (s.workers w).phase ≠ p) :
    (∃ v, (s.set w x).At p o v) ↔ ∃ v, s.At p o v := by
  refine exists_congr fun v => ?_
  rw [at_set]
  split_ifs with hv
  · subst hv
    exact iff_of_false (fun h => hx h.1) fun h => hw h.1
  · exact Iff.rfl

theorem exists_at_enter {p : Phase} {a : Nat} (hx : x.phase = p) (ha : innermost? x.stack = some a)
    (hw : (s.workers w).phase ≠ p) :
    (∃ v, (s.set w x).At p o v) ↔ o = a ∨ ∃ v, s.At p o v := by
  constructor
  · rintro ⟨v, hv⟩
    rw [at_set] at hv
    split_ifs at hv with he
    · exact .inl (Option.some.inj (hv.2.symm.trans ha))
    · exact .inr ⟨v, hv⟩
  · rintro (rfl | ⟨v, hv⟩)
    · exact ⟨w, (at_set w).mpr (by rw [if_pos rfl]; exact ⟨hx, ha⟩)⟩
    · have hne : v ≠ w := fun he => hw (he ▸ hv.1)
      exact ⟨v, (at_set v).mpr (by rw [if_neg hne]; exact hv)⟩

theorem exists_at_leave {p : Phase} {a : Nat} (hx : x.phase ≠ p) (hw : s.At p a w) :
    (∃ v, s.At p o v) ↔ o = a ∨ ∃ v, (s.set w x).At p o v := by
  constructor
  · rintro ⟨v, hv⟩
    by_cases he : v = w
    · subst he
      exact .inl (Option.some.inj (hv.2.symm.trans hw.2))
    · exact .inr ⟨v, (at_set v).mpr (by rw [if_neg he]; exact hv)⟩
  · rintro (rfl | ⟨v, hv⟩)
    · exact ⟨w, hw⟩
    · rw [at_set] at hv
      split_ifs at hv with he
      · exact absurd hv.1 hx
      · exact ⟨v, hv⟩

/-- A worker whose innermost object is `o` is the one that finishes it. -/
theorem Owned.owner_of_innermost (h : s.Owned) (ho : innermost? (s.workers w).stack = some o) :
    s.table.inProgress.lookup o = some w := by
  rw [(h.fits w).owns]
  unfold innermost? at ho
  obtain ⟨frame, hhead, rfl⟩ := Option.map_eq_some_iff.mp ho
  exact List.mem_map_of_mem (List.mem_of_mem_head? hhead)

theorem Called.not_called (h : s.Called) (howned : s.Owned)
    (hphase : (s.workers w).phase = .walking)
    (ho : innermost? (s.workers w).stack = some o) : o ∉ s.called := by
  have howner := howned.owner_of_innermost ho
  have hnowhere : ∀ p, p ≠ .walking → ¬ ∃ v, s.At p o v := by
    rintro p hp ⟨v, hv⟩
    obtain rfl : w = v := Option.some.inj (howner.symm.trans (howned.owner_of_innermost hv.2))
    exact hp (hv.1.symm.trans hphase)
  intro hcalled
  have hreturned := ((h.called o).mp hcalled).resolve_right (hnowhere .calling (by simp))
  have hfinished := ((h.returned o).mp hreturned).resolve_right (hnowhere .ending (by simp))
  rw [howned.apart o hfinished] at howner
  cases howner

theorem Called.quiet (h : s.Called) (hworkers : s'.workers = s.workers)
    (hfinished : s'.table.finished = s.table.finished) (hcalled : s'.called = s.called)
    (hreturned : s'.returned = s.returned) (hw : ¬ (s.workers w).phase.Closing)
    (hx : ¬ x.phase.Closing) : (s'.set w x).Called := by
  have hat : ∀ p o v, s'.At p o v ↔ s.At p o v := fun p o v => by rw [At, At, hworkers]
  rw [← hworkers] at hw
  refine ⟨?_, fun o => ?_, fun o => ?_⟩
  · exact hcalled ▸ h.nodup
  · rw [exists_at_set (fun hc => hx (.inl hc)) (fun hc => hw (.inl hc))]
    simp only [hat]
    exact hcalled ▸ hreturned ▸ h.called o
  · rw [exists_at_set (fun hc => hx (.inr hc)) (fun hc => hw (.inr hc)), table_set, hfinished]
    simp only [hat]
    exact hreturned ▸ h.returned o

theorem not_closing_of_walking {p : Phase} (h : p = .walking) : ¬ p.Closing := by
  rw [h]
  simp [Phase.Closing]

/-- **Every step keeps which callbacks were called and which have returned.** -/
theorem called_step (h : s.Called) (howned : s.Owned) (hstep : Step g w s s') : s'.Called := by
  cases hstep with
  | skip ref x htakes hnone =>
    exact h.quiet rfl rfl rfl rfl (not_closing_of_walking htakes.walking.1)
      (not_closing_of_walking htakes.walking.2)
  | finished ref x dependencies t htakes hsome hstart =>
    cases FinishTable.starts_of_eq hstart with
    | finished hfinished =>
      exact h.quiet rfl rfl rfl rfl (not_closing_of_walking htakes.walking.1)
        (not_closing_of_walking htakes.walking.2)
  | cycle ref x dependencies t htakes hsome hstart =>
    cases FinishTable.starts_of_eq hstart with
    | cycle owner hopen howner hring =>
      exact h.quiet rfl rfl rfl rfl (not_closing_of_walking htakes.walking.1)
        (not_closing_of_walking htakes.walking.2)
  | wait ref x dependencies t htakes hsome hstart =>
    cases FinishTable.starts_of_eq hstart with
    | wait owner hopen howner hring =>
      exact h.quiet rfl rfl rfl rfl (not_closing_of_walking htakes.walking.1)
        (by simp [Phase.Closing])
  | begin ref x dependencies t htakes hsome hstart =>
    cases FinishTable.starts_of_eq hstart with
    | begun hopen hfree =>
      exact h.quiet rfl rfl rfl rfl (not_closing_of_walking htakes.walking.1)
        (not_closing_of_walking htakes.walking.2)
  | wake object hphase hset =>
    exact h.quiet rfl rfl rfl rfl (by rw [hphase]; simp [Phase.Closing]) (by simp [Phase.Closing])
  | goOn object hphase =>
    exact h.quiet rfl rfl rfl rfl (by rw [hphase]; simp [Phase.Closing]) (by simp [Phase.Closing])
  | call frame below hphase hstack htodo =>
    have hinner : innermost? (s.workers w).stack = some frame.object.id := by rw [hstack]; rfl
    refine ⟨List.nodup_cons.mpr ⟨h.not_called howned hphase hinner, h.nodup⟩, fun o => ?_,
      fun o => ?_⟩
    · rw [exists_at_enter (x := { s.workers w with phase := .calling }) rfl hinner
        (by rw [hphase]; simp)]
      show o ∈ frame.object.id :: s.called ↔ o ∈ s.returned ∨ o = frame.object.id ∨
        ∃ v, s.At .calling o v
      rw [List.mem_cons, h.called, or_left_comm]
    · rw [exists_at_set (by simp) (by rw [hphase]; simp)]
      exact h.returned o
  | «return» frame below error hphase hstack =>
    have hinner : innermost? (s.workers w).stack = some frame.object.id := by rw [hstack]; rfl
    refine ⟨h.nodup, fun o => ?_, fun o => ?_⟩
    · refine (h.called o).trans ?_
      rw [exists_at_leave (x := { s.workers w with phase := .ending }) (by simp) ⟨hphase, hinner⟩]
      show _ ↔ o ∈ frame.object.id :: s.returned ∨ _
      rw [List.mem_cons, or_left_comm, or_assoc]
      rfl
    · rw [exists_at_enter (x := { s.workers w with phase := .ending }) rfl hinner
        (by rw [hphase]; simp)]
      show o ∈ frame.object.id :: s.returned ↔ o ∈ s.table.finished ∨ o = frame.object.id ∨
        ∃ v, s.At .ending o v
      rw [List.mem_cons, h.returned, or_left_comm]
  | finish frame below hphase hstack =>
    have hinner : innermost? (s.workers w).stack = some frame.object.id := by rw [hstack]; rfl
    refine ⟨h.nodup, fun o => ?_, fun o => ?_⟩
    · rw [exists_at_set (by simp) (by rw [hphase]; simp)]
      exact h.called o
    · refine (h.returned o).trans ?_
      rw [exists_at_leave (x := { s.workers w with
        stack := below, phase := .announcing frame.object.id }) (by simp) ⟨hphase, hinner⟩]
      show _ ↔ o ∈ frame.object.id :: s.table.finished ∨ _
      rw [List.mem_cons, or_left_comm, or_assoc]
      rfl
  | announce object hphase =>
    exact h.quiet rfl rfl rfl rfl (by rw [hphase]; simp [Phase.Closing]) (by simp [Phase.Closing])

theorem Reachable.calls (h : Reachable g roots s) : s.Called := by
  induction h with
  | start => exact called_start
  | step hs hstep ih => exact called_step ih hs.owned hstep

/-! ## Where nobody could wait -/

/-- A diagnostic says that the object depends on itself. -/
def Blames (errors : Array Diagnostic) (o : Nat) : Prop :=
  ∃ place ref, ref.id = o ∧ Compile.selfDependency place ref ∈ errors

/-- What nobody could wait for was begun by somebody, and a diagnostic names it. -/
def Refused (s : Team) : Prop := ∀ edge ∈ s.cycles, s.table.Known edge.2 ∧ Blames s.errors edge.2

theorem mem_noted {errors : Array Diagnostic} {place : Place} {error : Option String}
    {d : Diagnostic} (hd : d ∈ errors) : d ∈ noted errors place error := by
  cases error with
  | none => exact hd
  | some message => exact Array.mem_push_of_mem _ hd

theorem refused_step (h : s.Refused) (hstep : Step g w s s') : s'.Refused := by
  have hknown : ∀ o, s.table.Known o → s'.table.Known o := fun o ho => known_step hstep ho
  cases hstep with
  | cycle ref x dependencies t htakes hsome hstart =>
    cases FinishTable.starts_of_eq hstart with
    | cycle owner hopen howner hring =>
      intro edge hedge
      rcases List.mem_cons.mp hedge with rfl | hedge
      · exact ⟨.inr ⟨owner, howner⟩, x.place, ref, rfl, Array.mem_push_self⟩
      · obtain ⟨hbegun, place, other, hid, hd⟩ := h edge hedge
        exact ⟨hbegun, place, other, hid, Array.mem_push_of_mem _ hd⟩
  | «return» frame below error hphase hstack =>
    intro edge hedge
    obtain ⟨hbegun, place, other, hid, hd⟩ := h edge hedge
    exact ⟨hbegun, place, other, hid, mem_noted hd⟩
  | _ => exact fun edge hedge => ⟨hknown _ (h edge hedge).1, (h edge hedge).2⟩

theorem Reachable.refused (h : Reachable g roots s) : s.Refused := by
  induction h with
  | start => exact fun edge hedge => absurd hedge List.not_mem_nil
  | step _ hstep ih => exact refused_step ih hstep

/-! ## The order of calls -/

theorem Descending.inTree (h : s.Descending g roots) {frame : Frame} {below : List Frame}
    (hstack : (s.workers w).stack = frame :: below) : g.InTree roots frame.object.id := by
  have hx := h.descends w
  unfold Worker.Descends at hx
  rw [hstack] at hx
  obtain ⟨top, htop, hneeds, hpath⟩ := hx.2.reflTransGen
  obtain ⟨root, hroot, rfl⟩ := List.mem_map.mp htop
  exact ⟨w, root, hroot, hneeds, hpath⟩

theorem Reachable.inTree_of_called (h : Reachable g roots s) :
    ∀ o ∈ s.called, g.InTree roots o := by
  induction h with
  | start => exact fun o ho => absurd ho List.not_mem_nil
  | step hs hstep ih =>
    cases hstep with
    | call frame below hphase hstack htodo =>
      intro o ho
      rcases List.mem_cons.mp ho with rfl | ho
      · exact hs.descending.inTree hstack
      · exact ih o ho
    | _ => exact ih

/-- **When an object is called, what it depends on has returned**, but for what a diagnostic
names. -/
theorem Reachable.returned_of_call (h : Reachable g roots s) {frame : Frame} {below : List Frame}
    (hphase : (s.workers w).phase = .walking) (hstack : (s.workers w).stack = frame :: below)
    (htodo : frame.todo = []) {b : Nat} (hedge : g.Edge frame.object.id b) :
    b ∈ s.returned ∨ (some frame.object.id, b) ∈ s.cycles ∧ Blames s.errors b := by
  have hx := (Worker.descends_iff_of_walking hphase).mp (h.descending.descends w)
  rw [hstack] at hx
  obtain ⟨⟨dependencies, hsome, hlevel⟩, -⟩ := hx
  rw [htodo] at hlevel
  obtain ⟨dependencies', hsome', ref, href, rfl, hneeds⟩ := hedge
  obtain rfl : dependencies' = dependencies := Option.some.inj (hsome'.symm.trans hsome)
  rcases hlevel.done_of_mem href hneeds with hfinished | hcycle
  · exact .inl ((h.calls.returned _).mpr (.inl hfinished))
  · exact .inr ⟨hcycle, (h.refused _ hcycle).2⟩

/-! ## When all workers have completed -/

theorem Reachable.completed_of_stuck (h : Reachable g roots s) (hstuck : ∀ w s', ¬ Step g w s s')
    (w : Nat) : (s.workers w).Completed := by
  by_contra hw
  obtain ⟨v, hv, hfree⟩ := h.owned.exists_not_blocked hw
  obtain ⟨s', hstep⟩ := h.owned.exists_step hv hfree
  exact hstuck v s' hstep

/-- Whatever was begun is finished, once all workers have completed. -/
theorem Owned.finished_of_known (h : s.Owned) (hdone : ∀ w, (s.workers w).Completed)
    (ho : s.table.Known o) : o ∈ s.table.finished := by
  refine ho.resolve_right ?_
  rintro ⟨owner, howner⟩
  have hbegun := ((h.fits owner).owns o).mp howner
  simp [Worker.begun, (hdone owner).stack] at hbegun

/-- **Whatever the tree leads to is finished**, once all workers have completed. -/
theorem Reachable.finished_of_inTree (h : Reachable g roots s)
    (hdone : ∀ w, (s.workers w).Completed) (ho : g.InTree roots o) : o ∈ s.table.finished := by
  have hfinished : ∀ p a, s.Done p a → a ∈ s.table.finished := by
    rintro p a (ha | hcycle)
    · exact ha
    · exact h.owned.finished_of_known hdone (h.refused _ hcycle).1
  obtain ⟨w, root, hroot, hneeds, hpath⟩ := ho
  induction hpath with
  | refl => exact hfinished _ _ (h.descending.done_of_completed (hdone w) hroot hneeds)
  | tail _ hedge ih => exact hfinished _ _ (h.descending.ordered.exists_done ih hedge)

/-- Objects are finished once, after what they depend on. -/
structure FinishedOnce (s : Team) (g : DependencyGraph) (roots : Nat → List (Place × ObjectRef)) :
    Prop where
  /-- No callback is called twice. -/
  nodup : s.called.Nodup
  /-- Nothing is called but what an object of the tree leads to. -/
  inTree : ∀ o ∈ s.called, g.InTree roots o
  /-- When a callback is called, those of all that the object depends on have returned, but for
  what nobody could wait for, which a diagnostic names. -/
  ordered : ∀ w s' o, Step g w s s' → s'.called = o :: s.called → ∀ b, g.Edge o b →
    b ∈ s.returned ∨ (some o, b) ∈ s.cycles ∧ Blames s.errors b
  /-- Where no worker has a step left, whatever an object of the tree leads to was called once, and
  its callback has returned. -/
  all : (∀ w s', ¬ Step g w s s') → ∀ o, g.InTree roots o → s.called.count o = 1 ∧ o ∈ s.returned
  /-- The workers come to such an end. -/
  ends : g.Finite → Staffed roots →
    ¬ ∃ run : Nat → Team, run 0 = s ∧ ∀ i, ∃ w, Step g w (run i) (run (i + 1))

/-- **Objects are finished once, after what they depend on**, whatever the order of the steps. -/
theorem Reachable.finished_once (h : Reachable g roots s) : s.FinishedOnce g roots where
  nodup := h.calls.nodup
  inTree := h.inTree_of_called
  ordered w s' o hstep hcalled b hedge := by
    cases hstep with
    | call frame below hphase hstack htodo =>
      obtain ⟨rfl, -⟩ := List.cons.inj hcalled
      exact h.returned_of_call hphase hstack htodo hedge
    | _ => exact absurd hcalled.symm (List.cons_ne_self _ _)
  all hstuck o ho := by
    have hfinished := h.finished_of_inTree (h.completed_of_stuck hstuck) ho
    have hreturned := (h.calls.returned o).mpr (.inl hfinished)
    have hcalled := (h.calls.called o).mpr (.inl hreturned)
    exact ⟨List.count_eq_one_of_mem h.calls.nodup hcalled, hreturned⟩
  ends := h.no_endless_run

/-- Two objects that depend on a third one, which depends on the first. -/
def shared : DependencyGraph := fun o =>
  if o = 0 then some [⟨2, "C"⟩] else if o = 1 then some [⟨2, "C"⟩]
  else if o = 2 then some [⟨0, "A"⟩] else none

/-- One worker finishes the third object for both, and comes upon the ring; the other one waits. -/
theorem shared_completes : ∃ s, Reachable shared pairRoots s ∧ (∀ w, (s.workers w).Completed) ∧
    s.called = [1, 0, 2] ∧ s.cycles = [(some 2, 0)] := by
  have h₀ : Reachable shared pairRoots (start pairRoots) := .start
  have h₁ := h₀.step (.begin ⟨0, "A"⟩ _ _ _ (.root _ _ rfl rfl rfl) rfl rfl : Step shared 0 _ _)
  have h₂ := h₁.step
    (.begin ⟨2, "C"⟩ _ _ _ (.dependency _ _ _ rfl rfl rfl) rfl rfl : Step shared 0 _ _)
  have h₃ := h₂.step (.begin ⟨1, "B"⟩ _ _ _ (.root _ _ rfl rfl rfl) rfl rfl : Step shared 1 _ _)
  have h₄ := h₃.step
    (.wait ⟨2, "C"⟩ _ _ _ (.dependency _ _ _ rfl rfl rfl) rfl rfl : Step shared 1 _ _)
  have h₅ := h₄.step
    (.cycle ⟨0, "A"⟩ _ _ _ (.dependency _ _ _ rfl rfl rfl) rfl rfl : Step shared 0 _ _)
  have h₆ := h₅.step (.call _ _ rfl rfl rfl : Step shared 0 _ _)
  have h₇ := h₆.step (.return _ _ none rfl rfl : Step shared 0 _ _)
  have h₈ := h₇.step (.finish _ _ rfl rfl : Step shared 0 _ _)
  have h₉ := h₈.step (.announce 2 rfl : Step shared 0 _ _)
  have h₁₀ := h₉.step (.call _ _ rfl rfl rfl : Step shared 0 _ _)
  have h₁₁ := h₁₀.step (.return _ _ none rfl rfl : Step shared 0 _ _)
  have h₁₂ := h₁₁.step (.finish _ _ rfl rfl : Step shared 0 _ _)
  have h₁₃ := h₁₂.step (.announce 0 rfl : Step shared 0 _ _)
  have h₁₄ := h₁₃.step (.wake 2 rfl (by decide) : Step shared 1 _ _)
  have h₁₅ := h₁₄.step (.goOn 2 rfl : Step shared 1 _ _)
  have h₁₆ := h₁₅.step (.call _ _ rfl rfl rfl : Step shared 1 _ _)
  have h₁₇ := h₁₆.step (.return _ _ none rfl rfl : Step shared 1 _ _)
  have h₁₈ := h₁₇.step (.finish _ _ rfl rfl : Step shared 1 _ _)
  have h₁₉ := h₁₈.step (.announce 1 rfl : Step shared 1 _ _)
  refine ⟨_, h₁₉, fun w => ?_, rfl, rfl⟩
  rcases w with _ | _ | w
  · exact ⟨rfl, rfl, rfl⟩
  · exact ⟨rfl, rfl, rfl⟩
  · exact ⟨rfl, rfl, rfl⟩

theorem finished_once_shared : ∃ s, Reachable shared pairRoots s ∧
    (∀ w s', ¬ Step shared w s s') ∧ s.FinishedOnce shared pairRoots ∧
    s.called = [1, 0, 2] ∧ s.cycles = [(some 2, 0)] := by
  obtain ⟨s, hs, hdone, hcalled, hcycles⟩ := shared_completes
  exact ⟨s, hs, fun w s' => not_step_of_completed (hdone w), hs.finished_once, hcalled, hcycles⟩

end Team

end ResourceTree
