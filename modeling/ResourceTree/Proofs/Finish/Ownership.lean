import ResourceTree.Proofs.Finish.Team

/-!
# No deadlock

The table and the workers agree on who finishes what and who waits for what. A worker that waits
leads, through the owners of what is waited for, to a worker that does not, because there is no ring
of waiting workers and a chain is no longer than there are workers waiting.

* `Worker.Fits`: what the table says of one worker; `Team.Owned`: of the team;
* `owned_step`, `Reachable.owned`: every step keeps it;
* **`Reachable.no_deadlock`**: there is no ring, no object is finished and being finished, and
  while a worker has not completed some worker can go on.
-/

namespace ResourceTree

/-- The callback of the innermost object runs or has returned. -/
def Phase.Closing (p : Phase) : Prop := p = .calling ∨ p = .ending

/-- A worker comes to this phase only after the object was finished. -/
def Phase.Passed (p : Phase) (object : Nat) : Prop := p = .woken object ∨ p = .announcing object

/-- The object was begun. -/
def FinishTable.Known (t : FinishTable) (object : Nat) : Prop :=
  object ∈ t.finished ∨ ∃ owner, t.inProgress.lookup object = some owner

namespace Worker

variable {x y : Worker} {ref : ObjectRef} {t t' : FinishTable} {v w : Nat}

theorem Takes.walking (h : x.Takes ref y) : x.phase = .walking ∧ y.phase = .walking := by
  cases h with
  | dependency frame todo below hphase _ _ => exact ⟨hphase, hphase⟩
  | root place roots hphase _ _ => exact ⟨hphase, hphase⟩

theorem Takes.begun (h : x.Takes ref y) : y.begun = x.begun := by
  cases h with
  | dependency frame todo below _ hstack _ => simp [Worker.begun, hstack]
  | root place roots _ _ _ => rfl

/-! ## One worker -/

/-- What the table says of the worker `w` is how the worker is. -/
structure Fits (x : Worker) (t : FinishTable) (w : Nat) : Prop where
  waits : t.waiting.lookup w = x.phase.awaits
  owns : ∀ o, t.inProgress.lookup o = some w ↔ o ∈ x.begun
  nodup : x.begun.Nodup
  known : ∀ o, x.phase.awaits = some o → t.Known o
  passed : ∀ o, x.phase.Passed o → o ∈ t.finished
  closing : x.phase.Closing → ∃ frame below, x.stack = frame :: below ∧ frame.todo = []

theorem Fits.of_table (h : x.Fits t v) (hwaits : t'.waiting.lookup v = t.waiting.lookup v)
    (howns : ∀ o, t'.inProgress.lookup o = some v ↔ t.inProgress.lookup o = some v)
    (hknown : ∀ o, t.Known o → t'.Known o) (hfinished : t.finished ⊆ t'.finished) :
    x.Fits t' v where
  waits := hwaits.trans h.waits
  owns o := (howns o).trans (h.owns o)
  nodup := h.nodup
  known o ho := hknown o (h.known o ho)
  passed o ho := hfinished (h.passed o ho)
  closing := h.closing

theorem Fits.move (h : x.Fits t w) (hbegun : y.begun = x.begun)
    (hawaits : y.phase.awaits = x.phase.awaits) (hpassed : ∀ o, y.phase.Passed o → o ∈ t.finished)
    (hclosing : y.phase.Closing → ∃ frame below, y.stack = frame :: below ∧ frame.todo = []) :
    y.Fits t w where
  waits := by rw [hawaits]; exact h.waits
  owns o := by rw [hbegun]; exact h.owns o
  nodup := by rw [hbegun]; exact h.nodup
  known o := by rw [hawaits]; exact h.known o
  passed := hpassed
  closing := hclosing

theorem Fits.turn (h : x.Fits t w) (p : Phase) (hawaits : p.awaits = x.phase.awaits)
    (hpassed : ∀ o, p.Passed o → o ∈ t.finished)
    (hclosing : p.Closing → ∃ frame below, x.stack = frame :: below ∧ frame.todo = []) :
    Fits { x with phase := p } t w := h.move rfl hawaits hpassed hclosing

theorem Fits.takes (h : x.Fits t w) (htakes : x.Takes ref y) : y.Fits t w := by
  obtain ⟨hx, hy⟩ := htakes.walking
  refine h.move htakes.begun (by rw [hx, hy]) (fun o ho => ?_) fun hclosing => ?_
  · simp [hy, Phase.Passed] at ho
  · simp [hy, Phase.Closing] at hclosing

end Worker

namespace Team

variable {g : DependencyGraph} {roots : Nat → List (Place × ObjectRef)} {s s' : Team}
  {t : FinishTable} {v w : Nat} {x : Worker}

theorem workers_set (v : Nat) : (s.set w x).workers v = if v = w then x else s.workers v :=
  Function.update_apply _ _ _ _

@[simp] theorem table_set : (s.set w x).table = s.table := rfl

/-- What the table and the workers agree on. -/
structure Owned (s : Team) : Prop where
  fits : ∀ w, (s.workers w).Fits s.table w
  apart : ∀ o ∈ s.table.finished, s.table.inProgress.lookup o = none
  signalled : ∀ o ∈ s.signalled, o ∈ s.table.finished
  /-- Whoever finished an object sets its signal. -/
  announced : ∀ o ∈ s.table.finished, o ∈ s.signalled ∨ ∃ w, (s.workers w).phase = .announcing o
  acyclic : s.table.Acyclic

theorem owned_start : (start roots).Owned := by
  refine ⟨fun w => ⟨rfl, fun o => ?_, List.nodup_nil, ?_, ?_, ?_⟩, ?_, ?_, ?_, ?_⟩
  · simp [start, FinishTable.empty, Worker.begun]
  · simp [start, Phase.awaits]
  · simp [start, Phase.Passed]
  · simp [start, Phase.Closing]
  · simp [start, FinishTable.empty]
  · simp [start]
  · simp [start, FinishTable.empty]
  · intro a ha
    obtain ⟨b, hab, -⟩ := Relation.TransGen.head'_iff.mp ha
    simp [FinishTable.WaitsFor, FinishTable.awaited?, start, FinishTable.empty] at hab

/-! ## Steps -/

theorem fits_set (hw : x.Fits t w) (hv : ∀ v, v ≠ w → (s.workers v).Fits t v) (v : Nat) :
    ((s.set w x).workers v).Fits t v := by
  rw [workers_set]
  split_ifs with h
  · rw [h]
    exact hw
  · exact hv v h

/-- An announcement that is due stays due, whatever another worker does. -/
theorem Owned.announced_set (h : s.Owned) (hsilent : ∀ o, (s.workers w).phase ≠ .announcing o)
    (x : Worker) {o : Nat} (ho : o ∈ s.table.finished) :
    o ∈ s.signalled ∨ ∃ v, ((s.set w x).workers v).phase = .announcing o := by
  rcases h.announced o ho with hset | ⟨v, hv⟩
  · exact .inl hset
  · have hne : v ≠ w := fun he => hsilent o (he ▸ hv)
    exact .inr ⟨v, by rw [workers_set, if_neg hne, hv]⟩

theorem Owned.quiet (h : s.Owned) (hx : x.Fits s.table w)
    (hsilent : ∀ o, (s.workers w).phase ≠ .announcing o) (htable : s'.table = s.table)
    (hworkers : s'.workers = (s.set w x).workers) (hsignalled : s'.signalled = s.signalled) :
    s'.Owned where
  fits := by
    rw [htable, hworkers]
    exact fits_set hx fun v _ => h.fits v
  apart := by
    rw [htable]
    exact h.apart
  signalled := by
    rw [htable, hsignalled]
    exact h.signalled
  announced o ho := by
    rw [htable] at ho
    rw [hsignalled, hworkers]
    exact h.announced_set hsilent x ho
  acyclic := by
    rw [htable]
    exact h.acyclic

theorem Owned.wait (h : s.Owned) (hx : x.Fits s.table w) (hphase : (s.workers w).phase = .walking)
    {object owner : Nat} (howner : s.table.inProgress.lookup object = some owner)
    (hring : s.table.closesRing w owner = false) :
    (set { s with table := { s.table with waiting := (w, object) :: s.table.waiting } } w
      { x with phase := .waiting object }).Owned := by
  refine ⟨fits_set ⟨?_, hx.owns, hx.nodup, ?_, ?_, ?_⟩ fun v hv => ?_, h.apart, h.signalled,
    fun o ho => h.announced_set (by simp [hphase]) _ ho,
    FinishTable.acyclic_wait h.acyclic howner hring⟩
  · rw [table_set, FinishTable.lookup_cons_eq, if_pos rfl]
    rfl
  · intro o ho
    obtain rfl : object = o := Option.some.inj ho
    exact .inr ⟨owner, howner⟩
  · simp [Phase.Passed]
  · simp [Phase.Closing]
  · refine (h.fits v).of_table ?_ (fun o => Iff.rfl) (fun o ho => ho) (List.Subset.refl _)
    rw [table_set, FinishTable.lookup_cons_eq, if_neg hv]

/-- Nobody has begun an object that the table does not know, and nobody waits for it. -/
theorem Owned.fresh (h : s.Owned) {object : Nat} (hopen : object ∉ s.table.finished)
    (hfree : s.table.inProgress.lookup object = none) (v : Nat) :
    object ∉ (s.workers v).begun ∧ s.table.waiting.lookup v ≠ some object := by
  have hunknown : ¬ s.table.Known object := by
    rintro (hfinished | ⟨owner, howner⟩)
    · exact hopen hfinished
    · rw [hfree] at howner
      cases howner
  refine ⟨fun hv => hunknown (.inr ⟨v, ((h.fits v).owns object).mpr hv⟩), fun hv => ?_⟩
  rw [(h.fits v).waits] at hv
  exact hunknown ((h.fits v).known object hv)

theorem Owned.begin (h : s.Owned) (hx : x.Fits s.table w) (hphase : (s.workers w).phase = .walking)
    (hwalking : x.phase = .walking) (frame : Frame) (hopen : frame.object.id ∉ s.table.finished)
    (hfree : s.table.inProgress.lookup frame.object.id = none) :
    (set { s with table :=
      { s.table with inProgress := (frame.object.id, w) :: s.table.inProgress } } w
      { x with stack := frame :: x.stack }).Owned := by
  have hknown : ∀ o, s.table.Known o → FinishTable.Known
      { s.table with inProgress := (frame.object.id, w) :: s.table.inProgress } o := by
    rintro o (hfinished | ⟨owner, howner⟩)
    · exact .inl hfinished
    · refine .inr ?_
      rw [FinishTable.lookup_cons_eq]
      split_ifs
      · exact ⟨w, rfl⟩
      · exact ⟨owner, howner⟩
  refine ⟨fits_set ⟨hx.waits, fun o => ?_, ?_, fun o ho => hknown o (hx.known o ho), hx.passed, ?_⟩
    fun v hv => ?_, fun o ho => ?_, h.signalled,
    fun o ho => h.announced_set (by simp [hphase]) _ ho,
    FinishTable.acyclic_begin h.acyclic fun v => (h.fresh hopen hfree v).2⟩
  · rw [table_set, FinishTable.lookup_cons_eq]
    have hbegun := hx.owns o
    simp only [Worker.begun, List.map_cons, List.mem_cons] at hbegun ⊢
    split_ifs with ho
    · simp [ho]
    · simp [ho, hbegun]
  · refine List.nodup_cons.mpr ⟨fun hmem => ?_, hx.nodup⟩
    rw [← Worker.begun, ← hx.owns, hfree] at hmem
    cases hmem
  · simp [hwalking, Phase.Closing]
  · refine (h.fits v).of_table rfl (fun o => ?_) hknown (List.Subset.refl _)
    rw [table_set, FinishTable.lookup_cons_eq]
    split_ifs with ho
    · obtain rfl : o = frame.object.id := ho
      simp [hfree, Ne.symm hv]
    · exact Iff.rfl
  · have hne : o ≠ frame.object.id := fun he => hopen (by rw [← he]; exact ho)
    rw [table_set, FinishTable.lookup_cons_eq, if_neg hne]
    exact h.apart o ho

theorem Owned.goOn (h : s.Owned) {object : Nat} (hphase : (s.workers w).phase = .woken object) :
    (set { s with table := s.table.stopWaiting w } w
      { s.workers w with phase := .walking }).Owned := by
  refine ⟨fits_set ⟨?_, (h.fits w).owns, (h.fits w).nodup, ?_, ?_, ?_⟩ fun v hv => ?_, h.apart,
    h.signalled, fun o ho => h.announced_set (by simp [hphase]) _ ho,
    FinishTable.acyclic_stopWaiting h.acyclic w⟩
  · rw [table_set, FinishTable.lookup_stopWaiting, if_pos rfl]
    rfl
  · simp [Phase.awaits]
  · simp [Phase.Passed]
  · simp [Phase.Closing]
  · refine (h.fits v).of_table ?_ (fun o => Iff.rfl) (fun o ho => ho) (List.Subset.refl _)
    rw [table_set, FinishTable.lookup_stopWaiting, if_neg hv]

theorem Owned.finish (h : s.Owned) {frame : Frame} {below : List Frame}
    (hphase : (s.workers w).phase = .ending) (hstack : (s.workers w).stack = frame :: below) :
    (set { s with table := s.table.finish frame.object.id } w
      { s.workers w with stack := below, phase := .announcing frame.object.id }).Owned := by
  have hbegun : (s.workers w).begun = frame.object.id :: below.map fun frame => frame.object.id :=
    by simp [Worker.begun, hstack]
  have hnodup := (h.fits w).nodup
  rw [hbegun, List.nodup_cons] at hnodup
  have hmine : s.table.inProgress.lookup frame.object.id = some w := by
    rw [(h.fits w).owns, hbegun]
    exact List.mem_cons_self
  refine ⟨fits_set ⟨?_, fun o => ?_, hnodup.2, ?_, ?_, ?_⟩ fun v hv => ?_, fun o ho => ?_,
    fun o ho => List.mem_cons_of_mem _ (h.signalled o ho), fun o ho => ?_,
    FinishTable.acyclic_finish h.acyclic _⟩
  · have hwaits := (h.fits w).waits
    rw [hphase] at hwaits
    exact hwaits
  · rw [table_set, FinishTable.lookup_finish]
    have howns := (h.fits w).owns o
    rw [hbegun, List.mem_cons] at howns
    split_ifs with ho
    · rw [ho]
      simpa [Worker.begun] using hnodup.1
    · rw [howns]
      simp [ho, Worker.begun]
  · simp [Phase.awaits]
  · rintro o (ho | ho)
    · cases ho
    · cases ho
      exact List.mem_cons_self
  · simp [Phase.Closing]
  · refine (h.fits v).of_table rfl (fun o => ?_) (fun o hknown => ?_) (List.subset_cons_self _ _)
    · rw [table_set, FinishTable.lookup_finish]
      split_ifs with ho
      · rw [ho, hmine]
        simp [Ne.symm hv]
      · exact Iff.rfl
    · by_cases ho : o = frame.object.id
      · exact .inl (List.mem_cons.mpr (.inl ho))
      · refine hknown.imp (List.mem_cons_of_mem _) fun howner => ?_
        rw [table_set, FinishTable.lookup_finish, if_neg ho]
        exact howner
  · rw [table_set, FinishTable.lookup_finish]
    split_ifs with he
    · rfl
    · exact h.apart o ((List.mem_cons.mp ho).resolve_left he)
  · rcases List.mem_cons.mp ho with rfl | ho
    · exact .inr ⟨w, by rw [workers_set, if_pos rfl]⟩
    · exact h.announced_set (by simp [hphase]) _ ho

theorem Owned.announce (h : s.Owned) {object : Nat}
    (hphase : (s.workers w).phase = .announcing object) :
    (set { s with signalled := object :: s.signalled } w
      { s.workers w with phase := .walking }).Owned := by
  refine ⟨fits_set ((h.fits w).turn .walking ?_ ?_ ?_) fun v _ => h.fits v, h.apart, fun o ho => ?_,
    fun o ho => ?_, h.acyclic⟩
  · rw [hphase]
    rfl
  · simp [Phase.Passed]
  · simp [Phase.Closing]
  · rcases List.mem_cons.mp ho with rfl | ho
    · exact (h.fits w).passed _ (.inr hphase)
    · exact h.signalled o ho
  · rcases h.announced o ho with hset | ⟨v, hv⟩
    · exact .inl (List.mem_cons_of_mem _ hset)
    · by_cases hvw : v = w
      · rw [hvw, hphase] at hv
        cases hv
        exact .inl List.mem_cons_self
      · exact .inr ⟨v, by rw [workers_set, if_neg hvw]; exact hv⟩

/-- **Every step keeps what the table and the workers agree on.** -/
theorem owned_step (h : s.Owned) (hstep : Step g w s s') : s'.Owned := by
  cases hstep with
  | skip ref x htakes hnone =>
    have hsilent : ∀ o, (s.workers w).phase ≠ .announcing o := by simp [htakes.walking.1]
    exact h.quiet ((h.fits w).takes htakes) hsilent rfl rfl rfl
  | finished ref x dependencies t htakes hsome hstart =>
    have hsilent : ∀ o, (s.workers w).phase ≠ .announcing o := by simp [htakes.walking.1]
    cases FinishTable.starts_of_eq hstart with
    | finished hfinished => exact h.quiet ((h.fits w).takes htakes) hsilent rfl rfl rfl
  | cycle ref x dependencies t htakes hsome hstart =>
    have hsilent : ∀ o, (s.workers w).phase ≠ .announcing o := by simp [htakes.walking.1]
    cases FinishTable.starts_of_eq hstart with
    | cycle owner hopen howner hring =>
      exact h.quiet ((h.fits w).takes htakes) hsilent rfl rfl rfl
  | wait ref x dependencies t htakes hsome hstart =>
    cases FinishTable.starts_of_eq hstart with
    | wait owner hopen howner hring =>
      exact h.wait ((h.fits w).takes htakes) htakes.walking.1 howner hring
  | begin ref x dependencies t htakes hsome hstart =>
    obtain ⟨hphase, hwalking⟩ := htakes.walking
    cases FinishTable.starts_of_eq hstart with
    | begun hopen hfree =>
      exact h.begin ((h.fits w).takes htakes) hphase hwalking ⟨ref, dependencies⟩ hopen hfree
  | wake object hphase hset =>
    refine h.quiet ((h.fits w).turn (.woken object) ?_ ?_ ?_) (by simp [hphase]) rfl rfl rfl
    · rw [hphase]
      rfl
    · rintro o (ho | ho)
      · cases ho
        exact h.signalled object hset
      · cases ho
    · simp [Phase.Closing]
  | goOn object hphase => exact h.goOn hphase
  | call frame below hphase hstack htodo =>
    refine h.quiet ((h.fits w).turn .calling ?_ ?_ ?_) (by simp [hphase]) rfl rfl rfl
    · rw [hphase]
      rfl
    · simp [Phase.Passed]
    · exact fun _ => ⟨frame, below, hstack, htodo⟩
  | «return» frame below error hphase hstack =>
    refine h.quiet ((h.fits w).turn .ending ?_ ?_ ?_) (by simp [hphase]) rfl rfl rfl
    · rw [hphase]
      rfl
    · simp [Phase.Passed]
    · exact fun _ => (h.fits w).closing (.inl hphase)
  | finish frame below hphase hstack => exact h.finish hphase hstack
  | announce object hphase => exact h.announce hphase

theorem Reachable.owned (h : Reachable g roots s) : s.Owned := by
  induction h with
  | start => exact owned_start
  | step _ hstep ih => exact owned_step ih hstep

/-! ## Somebody can go on -/

/-- A worker that waits leads to another one, unless somebody can go on. -/
theorem Owned.exists_waitsFor (h : s.Owned)
    (hstuck : ∀ v, ¬ (s.workers v).Completed → s.Blocked v) (hw : ¬ (s.workers w).Completed) :
    ∃ v, s.table.WaitsFor w v ∧ ¬ (s.workers v).Completed := by
  obtain ⟨object, hphase, hunset⟩ := hstuck w hw
  have hawaits : (s.workers w).phase.awaits = some object := by rw [hphase]; rfl
  rcases (h.fits w).known object hawaits with hfinished | ⟨v, hv⟩
  · -- Whoever finished the object has yet to set its signal, and is not blocked.
    obtain ⟨v, hv⟩ := (h.announced object hfinished).resolve_left hunset
    have hbusy : ¬ (s.workers v).Completed := fun hdone => by
      have hidle := hdone.phase
      rw [hv] at hidle
      cases hidle
    obtain ⟨other, hother, -⟩ := hstuck v hbusy
    rw [hv] at hother
    cases hother
  · refine ⟨v, FinishTable.waitsFor_iff.mpr ⟨object, ?_, hv⟩, fun hdone => ?_⟩
    · rw [(h.fits w).waits, hawaits]
    · have hbegun := ((h.fits v).owns object).mp hv
      simp [Worker.begun, hdone.stack] at hbegun

theorem Owned.exists_isChain (h : s.Owned)
    (hstuck : ∀ v, ¬ (s.workers v).Completed → s.Blocked v) (n : Nat)
    (hw : ¬ (s.workers w).Completed) :
    ∃ l : List Nat, l.length = n ∧ (w :: l).IsChain s.table.WaitsFor := by
  induction n generalizing w with
  | zero => exact ⟨[], rfl, List.isChain_singleton w⟩
  | succ n ih =>
    obtain ⟨v, hwv, hv⟩ := h.exists_waitsFor hstuck hw
    obtain ⟨l, hlength, hl⟩ := ih hv
    exact ⟨v :: l, by rw [List.length_cons, hlength], List.isChain_cons_cons.mpr ⟨hwv, hl⟩⟩

/-- **Somebody is not blocked** while a worker has not completed. -/
theorem Owned.exists_not_blocked (h : s.Owned) (hw : ¬ (s.workers w).Completed) :
    ∃ v, ¬ (s.workers v).Completed ∧ ¬ s.Blocked v := by
  by_contra hno
  have hstuck : ∀ v, ¬ (s.workers v).Completed → s.Blocked v := fun v hv => by
    by_contra hb
    exact hno ⟨v, hv, hb⟩
  obtain ⟨l, hlength, hl⟩ := h.exists_isChain hstuck (s.table.waiting.length + 1) hw
  have hle := h.acyclic.length_le hl
  rw [List.length_cons, hlength] at hle
  omega

theorem exists_step_takes {ref : ObjectRef} (htakes : (s.workers w).Takes ref x) :
    ∃ s', Step g w s s' := by
  cases hg : g ref.id with
  | none => exact ⟨_, .skip ref x htakes hg⟩
  | some dependencies =>
    cases hstart : s.table.start ref.id w with
    | mk verdict t =>
      cases verdict with
      | finished => exact ⟨_, .finished ref x dependencies t htakes hg hstart⟩
      | begun => exact ⟨_, .begin ref x dependencies t htakes hg hstart⟩
      | wait => exact ⟨_, .wait ref x dependencies t htakes hg hstart⟩
      | cycle => exact ⟨_, .cycle ref x dependencies t htakes hg hstart⟩

/-- Whoever has not completed and is not blocked has a step. -/
theorem Owned.exists_step (h : s.Owned) (hw : ¬ (s.workers w).Completed) (hfree : ¬ s.Blocked w) :
    ∃ s', Step g w s s' := by
  cases hphase : (s.workers w).phase with
  | walking =>
    cases hstack : (s.workers w).stack with
    | nil =>
      cases hroots : (s.workers w).roots with
      | nil => exact absurd ⟨hroots, hstack, hphase⟩ hw
      | cons root rest => exact exists_step_takes (.root root.1 rest hphase hstack hroots)
    | cons frame below =>
      cases htodo : frame.todo with
      | nil => exact ⟨_, .call frame below hphase hstack htodo⟩
      | cons ref todo =>
        exact exists_step_takes (.dependency frame todo below hphase hstack htodo)
  | waiting object =>
    have hset : object ∈ s.signalled := by
      by_contra hunset
      exact hfree ⟨object, hphase, hunset⟩
    exact ⟨_, .wake object hphase hset⟩
  | woken object => exact ⟨_, .goOn object hphase⟩
  | calling =>
    obtain ⟨frame, below, hstack, -⟩ := (h.fits w).closing (.inl hphase)
    exact ⟨_, .return frame below none hphase hstack⟩
  | ending =>
    obtain ⟨frame, below, hstack, -⟩ := (h.fits w).closing (.inr hphase)
    exact ⟨_, .finish frame below hphase hstack⟩
  | announcing object => exact ⟨_, .announce object hphase⟩

/-- Nobody waits for ever. -/
structure NoDeadlock (g : DependencyGraph) (s : Team) : Prop where
  /-- No worker waits for itself, through any number of others. -/
  acyclic : s.table.Acyclic
  apart : ∀ o ∈ s.table.finished, s.table.inProgress.lookup o = none
  progress : (∃ w, ¬ (s.workers w).Completed) →
    ∃ w, ¬ (s.workers w).Completed ∧ ¬ s.Blocked w ∧ ∃ s', Step g w s s'

/-- **No deadlock**, whatever the objects depend on and whatever the order of the steps. -/
theorem Reachable.no_deadlock (h : Reachable g roots s) : s.NoDeadlock g where
  acyclic := h.owned.acyclic
  apart := h.owned.apart
  progress := by
    rintro ⟨w, hw⟩
    obtain ⟨v, hv, hfree⟩ := h.owned.exists_not_blocked hw
    exact ⟨v, hv, hfree, h.owned.exists_step hv hfree⟩

/-- Both workers have begun their object, and one waits for the other one. -/
theorem pair_waits : ∃ s, Reachable pair pairRoots s ∧ s.Blocked 0 := by
  have h₀ : Reachable pair pairRoots (start pairRoots) := .start
  have h₁ := h₀.step (.begin ⟨0, "A"⟩ _ _ _ (.root _ _ rfl rfl rfl) rfl rfl : Step pair 0 _ _)
  have h₂ := h₁.step (.begin ⟨1, "B"⟩ _ _ _ (.root _ _ rfl rfl rfl) rfl rfl : Step pair 1 _ _)
  have h₃ := h₂.step
    (.wait ⟨1, "B"⟩ _ _ _ (.dependency _ _ _ rfl rfl rfl) rfl rfl : Step pair 0 _ _)
  exact ⟨_, h₃, 1, rfl, List.not_mem_nil⟩

theorem no_deadlock_pair :
    ∃ s, Reachable pair pairRoots s ∧ s.Blocked 0 ∧ s.NoDeadlock pair := by
  obtain ⟨s, hs, hblocked⟩ := pair_waits
  exact ⟨s, hs, hblocked, hs.no_deadlock⟩

end Team

end ResourceTree
