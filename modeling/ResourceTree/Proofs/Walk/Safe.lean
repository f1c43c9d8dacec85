import ResourceTree.Proofs.Walk.Judgement
import ResourceTree.Proofs.Walk.Notes

/-!
# Safe actions — an invariant, and when an action breaks off

An action is safe for an invariant if it keeps it, also where it breaks off, and if it breaks off
for a known reason only.

* `Progress.Steady`: an invariant that notes keep;
* **`Action.Safe`**: an action that keeps an invariant, and what it gives;
* `safe_pure`, `Safe.bind`, `safe_store_bind`, `Safe.recover`, `safe_foldlM`: the ways to build
  actions;
* `safe_modifyGet`, `safe_of_noting`, `safe_addError_pure`: the smallest ones;
* **`safe`**: safe walks.
-/

namespace ResourceTree

/-- An invariant that notes keep. -/
def Progress.Steady {σ : Type} (inv : Progress σ → Prop) : Prop :=
  ∀ p note, inv p → inv (p.note note)

theorem Progress.Steady.notes {σ : Type} {inv : Progress σ → Prop} (h : Progress.Steady inv)
    {p : Progress σ} (hp : inv p) (added : List Note) : inv (p.notes added) := by
  induction added generalizing p with
  | nil => exact hp
  | cons note rest ih => exact ih (h p note hp)

namespace Action

variable {σ α β : Type} {inv : Progress σ → Prop} {breaks : Prop} {setting : Setting σ}
  {post : α → Prop} {post' : β → Prop} {action : Action σ α} {f : α → Action σ β}

/-- **An action that keeps an invariant**, also where it breaks off. Unless `breaks` is the case, it
does not break off, and its outcome is as `post` says. -/
def Safe (inv : Progress σ → Prop) (breaks : Prop) (setting : Setting σ) (post : α → Prop)
    (action : Action σ α) : Prop :=
  ∀ p r q, inv p → action.run setting p = (r, q) → inv q ∧ (breaks ∨ ∃ a, r = .ok a ∧ post a)

theorem Safe.exists_ok (h : Safe inv breaks setting post action) (hbreaks : ¬ breaks)
    {p : Progress σ} (hp : inv p) : ∃ a q, action.run setting p = (.ok a, q) ∧ inv q ∧ post a := by
  cases hrun : action.run setting p with
  | mk r q =>
    obtain ⟨hq, hbreak | ⟨a, rfl, ha⟩⟩ := h p r q hp hrun
    · exact absurd hbreak hbreaks
    · exact ⟨a, q, rfl, hq, ha⟩

/-! ## One after the other -/

theorem safe_pure {a : α} (h : post a) : Safe inv breaks setting post (pure a) := by
  intro p r q hp hrun
  cases hrun
  exact ⟨hp, .inr ⟨a, rfl, h⟩⟩

theorem safe_throw (h : breaks) (crash : Crash) :
    Safe inv breaks setting post (throw crash) := by
  intro p r q hp hrun
  cases hrun
  exact ⟨hp, .inl h⟩

theorem safe_crash (h : breaks) (place : Place) (panic : Panic) :
    Safe inv breaks setting post (crash place panic) := safe_throw h _

theorem Safe.mono {other : α → Prop} (h : Safe inv breaks setting post action)
    (himp : ∀ a, post a → other a) : Safe inv breaks setting other action := by
  intro p r q hp hrun
  obtain ⟨hq, hpost⟩ := h p r q hp hrun
  refine ⟨hq, hpost.imp_right ?_⟩
  rintro ⟨a, rfl, ha⟩
  exact ⟨a, rfl, himp a ha⟩

theorem Safe.bind_always {always : α → Prop} (h : Safe inv breaks setting post action)
    (halways : Always setting always action)
    (hf : ∀ a, always a → Safe inv breaks setting (fun b => post a → post' b) (f a)) :
    Safe inv breaks setting post' (action >>= f) := by
  intro p r q hp hrun
  rw [run_bind] at hrun
  cases haction : action.run setting p with
  | mk outcome middle =>
    obtain ⟨hmiddle, hpost⟩ := h p outcome middle hp haction
    rw [haction] at hrun
    cases outcome with
    | error crash =>
      cases hrun
      exact ⟨hmiddle, hpost.imp_right nofun⟩
    | ok a =>
      obtain ⟨hq, hpost'⟩ := hf a (halways p a middle haction) middle r q hmiddle hrun
      refine ⟨hq, ?_⟩
      rcases hpost with hbreaks | ⟨_, ⟨⟩, ha⟩
      · exact .inl hbreaks
      · exact hpost'.imp_right fun ⟨b, hb, himp⟩ => ⟨b, hb, himp ha⟩

theorem Safe.bind (h : Safe inv breaks setting post action)
    (hf : ∀ a, Safe inv breaks setting (fun b => post a → post' b) (f a)) :
    Safe inv breaks setting post' (action >>= f) := h.bind_always always_true fun a _ => hf a

theorem Safe.bind_pure (h : Safe inv breaks setting post action) {g : α → β}
    (hg : ∀ a, post a → post' (g a)) :
    Safe inv breaks setting post' (action >>= fun a => pure (g a)) :=
  h.bind fun a => safe_pure (hg a)

theorem Safe.andThen_always {always : α → Prop} (h : Safe inv breaks setting post action)
    (halways : Always setting always action)
    (hf : ∀ a, always a → Safe inv breaks setting post' (f a)) :
    Safe inv breaks setting post' (action >>= f) :=
  h.bind_always halways fun a ha => (hf a ha).mono fun _ hb _ => hb

theorem Safe.andThen (h : Safe inv breaks setting post action)
    (hf : ∀ a, Safe inv breaks setting post' (f a)) :
    Safe inv breaks setting post' (action >>= f) := h.andThen_always always_true fun a _ => hf a

/-! ## The smallest actions -/

theorem safe_modifyGet {g : Progress σ → α × Progress σ}
    (hg : ∀ p, inv p → inv (g p).2) :
    Safe inv breaks setting (fun _ => True) (modifyGet g : Action σ α) := by
  intro p r q hp hrun
  rw [run_modifyGet] at hrun
  cases hrun
  exact ⟨hg p hp, .inr ⟨_, rfl, trivial⟩⟩

theorem safe_read_bind {f : Setting σ → Action σ β}
    (h : Safe inv breaks setting post' (f setting)) :
    Safe inv breaks setting post' (read >>= f) := h

theorem safe_store_bind {f : Store σ → Action σ β}
    (h : ∀ p, inv p → Safe inv breaks setting post' (f p.store)) :
    Safe inv breaks setting post' (store >>= f) := fun p r q hp => h p hp p r q hp

theorem safe_handles_bind {f : Handles → Action σ β}
    (h : ∀ hs, Safe inv breaks setting post' (f hs)) :
    Safe inv breaks setting post' (handles >>= f) := fun p => h p.store.handles p

theorem safe_of_noting (hinv : Progress.Steady inv) (h : Noting setting action) :
    Safe inv breaks setting (fun _ => True) action := by
  obtain ⟨result, hnoting⟩ := h
  intro p r q hp hrun
  cases (hnoting setting.fanOut p).symm.trans hrun
  exact ⟨hinv.notes hp _, .inr ⟨_, rfl, trivial⟩⟩

theorem safe_record (hinv : Progress.Steady inv) (d : Diagnostic) :
    Safe inv breaks setting (fun _ => True) (record d : Action σ Unit) :=
  safe_modifyGet fun p => hinv p (.diagnostic d)

theorem safe_addError_pure (hinv : Progress.Steady inv) (place : Place) (kind : Diagnostic.Kind)
    (message : String) {a : α} (h : post a) :
    Safe inv breaks setting post (addError place kind message >>= fun _ => pure a) :=
  (safe_record hinv _).bind_pure fun _ _ => h

theorem safe_nextWorker (hinv : Progress.Steady inv) :
    Safe inv breaks setting (fun _ => True) (nextWorker : Action σ Nat) :=
  safe_modifyGet fun p => hinv p .worker

/-- What is done after a panic has to be as safe, but may rely on there being a reason for it. -/
theorem Safe.recover (h : Safe inv breaks setting post action) {handler : Crash → Action σ α}
    (hhandler : ∀ crash, breaks → Safe inv breaks setting (fun _ => True) (handler crash)) :
    Safe inv breaks setting post (action.recover handler) := by
  intro p r q hp hrun
  rw [run_recover] at hrun
  cases haction : action.run setting p with
  | mk outcome middle =>
    obtain ⟨hmiddle, hpost⟩ := h p outcome middle hp haction
    rw [haction] at hrun
    cases outcome with
    | ok b =>
      cases hrun
      exact ⟨hmiddle, hpost⟩
    | error crash =>
      have hbreaks : breaks := hpost.resolve_right nofun
      exact ⟨(hhandler crash hbreaks middle r q hmiddle hrun).1, .inl hbreaks⟩

theorem Safe.andFinally (h : Safe inv breaks setting post action) {after : Action σ Unit}
    (hafter : Safe inv breaks setting (fun _ => True) after) :
    Safe inv breaks setting post (action.andFinally after) := by
  unfold Action.andFinally
  refine (h.recover fun crash hbreaks => ?_).bind fun a => ?_
  · exact hafter.andThen fun _ => safe_throw hbreaks crash
  · exact hafter.andThen fun _ => safe_pure id

/-- What every step keeps, all steps keep. -/
theorem safe_foldlM {f : β → α → Action σ β} (xs : List α)
    (h : ∀ b, ∀ x ∈ xs, Safe inv breaks setting (fun _ => True) (f b x)) (b : β) :
    Safe inv breaks setting (fun _ => True) (xs.foldlM f b) := by
  induction xs generalizing b with
  | nil => exact safe_pure trivial
  | cons x xs ih =>
    rw [List.foldlM_cons]
    exact (h b x List.mem_cons_self).andThen fun next =>
      ih (fun b y hy => h b y (List.mem_cons_of_mem x hy)) next

/-! ## Walks -/

/-- **That actions are safe is a judgement**, which counts nothing. A panic that is caught is
recorded. -/
def safe (inv : Progress σ → Prop) (hinv : Progress.Steady inv) (breaks : Prop) :
    Judgement σ Nat where
  Says setting post action _ := Safe inv breaks setting post action
  says_pure := safe_pure
  says_bind_always halways h hf := h.bind_always halways hf
  says_read_bind := safe_read_bind
  says_nextWorker := safe_nextWorker hinv
  says_branch h := h.recover fun _ _ => (safe_record hinv _).bind_pure fun _ _ => trivial

end Action

end ResourceTree
