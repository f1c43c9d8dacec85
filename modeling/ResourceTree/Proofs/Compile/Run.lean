import ResourceTree.Compile.Finish

/-!
# Runs of actions

* `run_bind_of_ok`, **`run_bind_ok`**: what a run without a panic went through;
* `run_store`, `run_handles`, `run_modifyGet`, `run_withTable`: runs of the smallest actions;
* `run_andFinally_ok`, `run_visitDependencies_cons_ok`.
-/

namespace ResourceTree

namespace Action

variable {σ α β : Type} {setting : Setting σ} {p q r : Progress σ} {action : Action σ α}
  {f : α → Action σ β} {a : α} {b : β}

theorem run_pure : (pure a : Action σ α).run setting p = (.ok a, p) := rfl

theorem run_bind : (action >>= f).run setting p =
    match action.run setting p with
    | (.ok a, q) => (f a).run setting q
    | (.error crash, q) => (.error crash, q) := by
  show (ExceptT.bind (action setting) fun a => f a setting : ExceptT Crash _ β) p = _
  unfold run ExceptT.bind ExceptT.mk
  show (ExceptT.bindCont (fun a => f a setting) (action setting p).1 : StateM _ _)
    (action setting p).2 = _
  rcases action setting p with ⟨crash | a, q⟩
  · rfl
  · rfl

theorem run_bind_of_ok (h : action.run setting p = (.ok a, q)) :
    (action >>= f).run setting p = (f a).run setting q := by
  rw [run_bind, h]

/-- **A run without a panic goes through one after the other.** -/
theorem run_bind_ok : (action >>= f).run setting p = (.ok b, r) ↔
    ∃ a q, action.run setting p = (.ok a, q) ∧ (f a).run setting q = (.ok b, r) := by
  rw [run_bind]
  rcases action.run setting p with ⟨crash | a, q⟩
  · simp
  · refine ⟨fun h => ⟨a, q, rfl, h⟩, ?_⟩
    rintro ⟨a', q', heq, h⟩
    cases heq
    exact h

theorem run_read_bind {f : Setting σ → Action σ α} :
    ((read : Action σ (Setting σ)) >>= f).run setting p = (f setting).run setting p := rfl

theorem run_store : (store : Action σ (Store σ)).run setting p = (.ok p.store, p) := rfl

theorem run_handles : (handles : Action σ Handles).run setting p = (.ok p.store.handles, p) := rfl

theorem run_modifyGet (f : Progress σ → α × Progress σ) :
    (modifyGet f : Action σ α).run setting p = (.ok (f p).1, (f p).2) := rfl

theorem run_withTable (f : FinishTable → α × FinishTable) :
    (Compile.withTable f : Action σ α).run setting p =
      (.ok (f p.finishing).1, { p with finishing := (f p.finishing).2 }) := rfl

theorem run_recover (handler : Crash → Action σ α) : (action.recover handler).run setting p =
    match action.run setting p with
    | (.ok a, q) => (.ok a, q)
    | (.error crash, q) => (handler crash).run setting q := rfl

theorem run_throw (crash : Crash) :
    (throw crash : Action σ α).run setting p = (.error crash, p) := rfl

theorem run_recover_throw_ok {after : Action σ Unit} :
    (action.recover fun crash => do after; throw crash).run setting p = (.ok a, q) ↔
      action.run setting p = (.ok a, q) := by
  rw [run_recover]
  rcases haction : action.run setting p with ⟨crash | b, q'⟩
  · refine iff_of_false (fun h => ?_) (by simp)
    obtain ⟨_, _, -, hthrow⟩ := run_bind_ok.mp h
    rw [run_throw] at hthrow
    cases hthrow
  · exact Iff.rfl

theorem run_andFinally_ok {after : Action σ Unit}
    (h : (action.andFinally after).run setting p = (.ok a, r)) :
    ∃ q, action.run setting p = (.ok a, q) ∧ after.run setting q = (.ok (), r) := by
  unfold andFinally at h
  obtain ⟨b, q, haction, h⟩ := run_bind_ok.mp h
  rw [run_recover_throw_ok] at haction
  obtain ⟨_, r', hafter, hpure⟩ := run_bind_ok.mp h
  rw [run_pure] at hpure
  cases hpure
  exact ⟨q, haction, hafter⟩

/-- The visit of the first dependency, and then of the rest. -/
theorem run_visitDependencies_cons_ok {visit : ObjectRef → Action σ Unit}
    {dependency : Value} {dependencies : List Value}
    (h : (Compile.visitDependencies visit (dependency :: dependencies)).run setting p =
      (.ok (), q)) :
    match Compile.dependencyObject? p.store.handles dependency with
    | some other => ∃ p', (visit other).run setting p = (.ok (), p') ∧
        (Compile.visitDependencies visit dependencies).run setting p' = (.ok (), q)
    | none => (Compile.visitDependencies visit dependencies).run setting p = (.ok (), q) := by
  unfold Compile.visitDependencies at h ⊢
  rw [List.forM] at h
  obtain ⟨u, p', hfirst, h⟩ := run_bind_ok.mp h
  obtain ⟨handles, p₀, hhandles, hfirst⟩ := run_bind_ok.mp hfirst
  rw [run_handles] at hhandles
  cases hhandles
  cases hother : Compile.dependencyObject? p.store.handles dependency with
  | none =>
    simp only [hother] at hfirst
    cases hfirst
    exact h
  | some other =>
    simp only [hother] at hfirst
    exact ⟨p', hfirst, h⟩

end Action

end ResourceTree
