import ResourceTree.Proofs.Cache.System

/-!
# Loads that nobody interrupts

`loadValue` reads a compiled value and answers all requests of its conversion in one go. A system
comes to the same by steps of one load, while the program and the other loads rest.

* `Turn.behind`, `Cache.Blind`: parts of steps that do not look at loads put in flight before;
* `System.Performs`: the system after all requests of one load were answered;
* **`loadValue_steps`**: what `loadValue` does is a sequence of steps.
-/

namespace ResourceTree

/-- A turn that comes after loads were put in flight. -/
def Turn.behind {σ : Type} (t : Turn σ) (loads : List Load) : Turn σ :=
  { t with spawned := loads ++ t.spawned }

namespace Cache

variable {σ α β : Type}

/-! ## Parts of steps that do not look back -/

/-- A part of a step that does not look at the loads that were put in flight before. -/
def Blind (x : CacheM σ α) : Prop :=
  ∀ (t : Turn σ) (loads : List Load),
    x.run (t.behind loads) = ((x.run t).1, (x.run t).2.behind loads)

theorem blind_pure (a : α) : Blind (pure a : CacheM σ α) := fun _ _ => rfl

theorem blind_bind {x : CacheM σ α} {f : α → CacheM σ β} (hx : Blind x) (hf : ∀ a, Blind (f a)) :
    Blind (x >>= f) := by
  intro t loads
  rw [run_bind, hx, hf, run_bind]

theorem blind_spawn (name : String) (started : Option LoadTask) :
    Blind (spawn name started : CacheM σ Unit) := by
  intro t loads
  rw [run_spawn, run_spawn]
  simp only [launch, Turn.behind, List.append_assoc]

theorem blind_claimTask (name : String) : Blind (claimTask name : CacheM σ _) := by
  intro t loads
  rw [run_claimTask, run_claimTask]
  simp only [Turn.behind]
  cases t.cache.entries.get? name with
  | none => rfl
  | some e => cases htask : e.task <;> simp [htask]

theorem blind_await (name : String) (e : Entry) (h : Handle) :
    Blind (await name e h : CacheM σ _) := by
  refine blind_bind (fun t loads => ?_) fun _ => blind_bind (fun _ _ => rfl) fun _ =>
    blind_claimTask name
  rw [run_pendingSignal, run_pendingSignal]
  rfl

theorem blind_getResource (name : String) : Blind (getResource name : CacheM σ _) := by
  refine blind_bind (fun _ _ => rfl) fun entry => blind_bind (fun _ _ => rfl) fun live => ?_
  cases live with
  | some h => exact blind_pure h
  | none =>
    exact blind_bind (fun _ _ => rfl) fun h => blind_bind (blind_await name _ h) fun started =>
      blind_bind (blind_spawn name started) fun _ => blind_pure h

variable [ObjectClass σ]

theorem blind_perform (x : Conversion σ α) : Blind (perform x) := by
  induction x with
  | done result => exact blind_pure _
  | failed failure => exact blind_pure _
  | handle name next ih => exact blind_bind (blind_getResource name) ih
  | object item next ih => exact blind_bind (fun _ _ => rfl) ih

end Cache

namespace System

variable {σ : Type} {s s' : System σ} {before after : List (Flight σ)} {f : Flight σ}

/-- The turn after a request stands behind the loads that the request put in flight. -/
theorem turn_behind {t : Turn σ} (hstore : s.store = t.store) (hcache : s.cache = t.cache) :
    s.turn.behind t.spawned = t := by
  simp only [turn, Turn.behind, List.append_nil, hstore, hcache]

variable [ObjectClass σ]

/-! ## One load alone -/

/-- One load has nothing left to ask for, and nobody else has taken a step since: what it did to the
cache is a turn with an outcome. -/
structure Performs (s : System σ) (before after : List (Flight σ)) (f : Flight σ)
    (result : Except Failure Value × Turn σ) (s' : System σ) : Prop where
  steps : Relation.ReflTransGen Step s s'
  store : s'.store = result.2.store
  cache : s'.cache = result.2.cache
  held : s'.held = s.held
  flights : ∃ rest : Conversion σ Value, rest.outcome? = some result.1 ∧
    s'.flights = before ++ f.working rest :: (after ++ result.2.spawned.map (⟨·, s.epoch, none⟩))

theorem Performs.head {α : Type} {x : CacheM σ α} {next : α → Conversion σ Value} {s₁ : System σ}
    (hstep : Step s s₁) (hstore : s₁.store = (x.run s.turn).2.store)
    (hcache : s₁.cache = (x.run s.turn).2.cache) (hheld : s₁.held = s.held)
    (hepoch : s₁.epoch = s.epoch)
    (hrest : Performs s₁ before (after ++ (x.run s.turn).2.spawned.map (⟨·, s.epoch, none⟩)) f
      ((Cache.perform (next (x.run s.turn).1)).run s₁.turn) s') :
    Performs s before after f ((do Cache.perform (next (← x)) : CacheM σ _).run s.turn) s' := by
  have hrun : (do Cache.perform (next (← x)) : CacheM σ _).run s.turn =
      (((Cache.perform (next (x.run s.turn).1)).run s₁.turn).1,
        ((Cache.perform (next (x.run s.turn).1)).run s₁.turn).2.behind
          (x.run s.turn).2.spawned) := by
    rw [← Cache.blind_perform, turn_behind hstore hcache, Cache.run_bind]
  obtain ⟨rest, houtcome, hflights⟩ := hrest.flights
  rw [hrun]
  refine ⟨.head hstep hrest.steps, hrest.store, hrest.cache, hrest.held.trans hheld, rest,
    houtcome, ?_⟩
  rw [hflights, hepoch]
  simp only [Turn.behind, List.map_append, List.append_assoc]

/-- **All requests of one load are answered** by steps of that load. -/
theorem perform_steps (x : Conversion σ Value) (hf : s.flights = before ++ f.working x :: after) :
    ∃ s', Performs s before after f ((Cache.perform x).run s.turn) s' := by
  induction x generalizing s after with
  | done result =>
    refine ⟨s, .refl, rfl, rfl, rfl, .done result, rfl, ?_⟩
    rw [hf]
    exact congrArg (before ++ f.working _ :: ·) (List.append_nil after).symm
  | failed failure =>
    refine ⟨s, .refl, rfl, rfl, rfl, .failed failure, rfl, ?_⟩
    rw [hf]
    exact congrArg (before ++ f.working _ :: ·) (List.append_nil after).symm
  | handle name next ih =>
    have hstep := Step.request before after _ name next hf rfl
    have hflights : (ask (s.goOn before after (f.working (next (s.answer name)))) name).flights =
        before ++ f.working (next (s.answer name)) ::
          (after ++ ((Cache.getResource name).run s.turn).2.spawned.map (⟨·, s.epoch, none⟩)) :=
      List.append_assoc before (_ :: after) _
    obtain ⟨s', hrest⟩ := ih (s.answer name) hflights
    exact ⟨s', .head hstep rfl rfl rfl rfl hrest⟩
  | object item next ih =>
    have hstep := Step.make before after _ item next hf rfl
    have hflights :
        (keep (s.goOn before after (f.working (next (s.reference item)))) item).flights =
        before ++ f.working (next (s.reference item)) ::
          (after ++ ((Cache.keepObject item).run s.turn).2.spawned.map (⟨·, s.epoch, none⟩)) :=
      List.append_assoc before (_ :: after) _
    obtain ⟨s', hrest⟩ := ih (s.reference item) hflights
    exact ⟨s', .head hstep rfl rfl rfl rfl hrest⟩

/-- **What a load does in one go is a sequence of its steps**, from the read of its value on. -/
theorem loadValue_steps (hf : s.flights = before ++ f :: after) (hwork : f.work = none) :
    ∃ s', Performs s before after f ((Cache.loadValue f.load.name).run s.turn) s' := by
  have hrun : (Cache.loadValue f.load.name).run s.turn =
      (Cache.perform (s.cache.conversion f.load.name)).run s.turn := by
    rw [Cache.loadValue, Cache.run_bind]
    rfl
  have hread := Step.read before after f hf hwork
  generalize s.cache.conversion f.load.name = x at hrun hread
  have hturn : (s.goOn before after (f.working x)).turn = s.turn := rfl
  obtain ⟨s', hs'⟩ := perform_steps (s := s.goOn before after (f.working x)) x rfl
  rw [hturn] at hs'
  rw [hrun]
  exact ⟨s', .head hread hs'.steps, hs'.store, hs'.cache, hs'.held, hs'.flights⟩

end System

end ResourceTree
