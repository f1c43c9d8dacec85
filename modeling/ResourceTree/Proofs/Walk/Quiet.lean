import ResourceTree.Proofs.Walk.Judgement
import ResourceTree.Proofs.Walk.Notes

/-!
# Quiet actions — what holds where no diagnostic is added

No action takes a diagnostic away before the end of a compile. What an action gives where it adds
none can therefore be put together from what its parts give where they add none, and a panic that is
caught is never quiet.

* **`Action.Quiet`**: what an action gives where it adds no diagnostic;
* `quiet_pure`, `Quiet.bind`, `quiet_handles_bind`, `Quiet.recover`, `quiet_foldlM`: the ways to
  build actions;
* `quiet_addError_pure`, `quiet_of_noting`, `quiet_reference`, `quiet_publish`, `quiet_perform`: the
  smallest ones;
* **`quiet`**: quiet walks.
-/

namespace ResourceTree

namespace Action

variable {σ α β : Type} {setting : Setting σ} {post : α → Prop} {post' : β → Prop}
  {action : Action σ α} {f : α → Action σ β}

/-- **An action that takes no diagnostic away**, also where it breaks off. Where it gives something
and adds no diagnostic, its outcome is as `post` says. -/
def Quiet (setting : Setting σ) (post : α → Prop) (action : Action σ α) : Prop :=
  ∀ p r q, action.run setting p = (r, q) →
    p.errors.size ≤ q.errors.size ∧ ∀ a, r = .ok a → q.errors.size = p.errors.size → post a

/-! ## One after the other -/

theorem quiet_pure {a : α} (h : post a) : Quiet setting post (pure a) := by
  intro p r q hrun
  cases hrun
  refine ⟨Nat.le_refl _, fun b hb _ => ?_⟩
  cases hb
  exact h

theorem quiet_throw (crash : Crash) : Quiet setting post (throw crash) := by
  intro p r q hrun
  cases hrun
  exact ⟨Nat.le_refl _, nofun⟩

theorem quiet_crash (place : Place) (panic : Panic) : Quiet setting post (crash place panic) :=
  quiet_throw _

theorem Quiet.mono {other : α → Prop} (h : Quiet setting post action)
    (himp : ∀ a, post a → other a) : Quiet setting other action := fun p r q hrun =>
  ⟨(h p r q hrun).1, fun a hr hsize => himp a ((h p r q hrun).2 a hr hsize)⟩

/-- What follows may rely on what the action always gives; on what it gives where it is quiet, only
to give something itself. -/
theorem Quiet.bind_always {always : α → Prop} (h : Quiet setting post action)
    (halways : Always setting always action)
    (hf : ∀ a, always a → Quiet setting (fun b => post a → post' b) (f a)) :
    Quiet setting post' (action >>= f) := by
  intro p r q hrun
  rw [run_bind] at hrun
  cases haction : action.run setting p with
  | mk outcome middle =>
    obtain ⟨hgrows, hpost⟩ := h p outcome middle haction
    rw [haction] at hrun
    cases outcome with
    | error crash =>
      cases hrun
      exact ⟨hgrows, nofun⟩
    | ok a =>
      obtain ⟨hgrows', hpost'⟩ := hf a (halways p a middle haction) middle r q hrun
      refine ⟨hgrows.trans hgrows', fun b hb hsize => ?_⟩
      have hmiddle : middle.errors.size = p.errors.size := by omega
      exact hpost' b hb (hsize.trans hmiddle.symm) (hpost a rfl hmiddle)

theorem Quiet.bind (h : Quiet setting post action)
    (hf : ∀ a, Quiet setting (fun b => post a → post' b) (f a)) :
    Quiet setting post' (action >>= f) := h.bind_always always_true fun a _ => hf a

theorem Quiet.bind_pure (h : Quiet setting post action) {g : α → β}
    (hg : ∀ a, post a → post' (g a)) : Quiet setting post' (action >>= fun a => pure (g a)) :=
  h.bind fun a => quiet_pure (hg a)

/-- An action of which nothing is known but that it takes no diagnostic away. -/
theorem Quiet.andThen (h : Quiet setting post action) (hf : ∀ a, Quiet setting post' (f a)) :
    Quiet setting post' (action >>= f) := h.bind fun a => (hf a).mono fun _ hb _ => hb

/-! ## The smallest actions -/

theorem quiet_modifyGet {g : Progress σ → α × Progress σ} (hg : ∀ p, (g p).2.errors = p.errors) :
    Quiet setting (fun _ => True) (modifyGet g : Action σ α) := by
  intro p r q hrun
  rw [run_modifyGet] at hrun
  cases hrun
  rw [hg]
  exact ⟨Nat.le_refl _, fun _ _ _ => trivial⟩

theorem quiet_read_bind {f : Setting σ → Action σ β} (h : Quiet setting post' (f setting)) :
    Quiet setting post' (read >>= f) := h

theorem quiet_store_bind {f : Store σ → Action σ β} (h : ∀ s, Quiet setting post' (f s)) :
    Quiet setting post' (store >>= f) := fun p => h p.store p

theorem quiet_handles_bind {f : Handles → Action σ β} (h : ∀ hs, Quiet setting post' (f hs)) :
    Quiet setting post' (handles >>= f) := fun p => h p.store.handles p

theorem quiet_nextWorker : Quiet setting (fun _ => True) (nextWorker : Action σ Nat) :=
  quiet_modifyGet fun _ => rfl

theorem quiet_record (d : Diagnostic) :
    Quiet setting (fun _ => False) (record d : Action σ Unit) := by
  intro p r q hrun
  cases hrun
  rw [Array.size_push]
  exact ⟨Nat.le_succ _, fun _ _ hsize => absurd hsize (Nat.succ_ne_self _)⟩

theorem quiet_addError (place : Place) (kind : Diagnostic.Kind) (message : String) :
    Quiet setting (fun _ => False) (addError place kind message : Action σ Unit) := quiet_record _

theorem quiet_addError_pure (place : Place) (kind : Diagnostic.Kind) (message : String) (a : α) :
    Quiet setting post (addError place kind message >>= fun _ => pure a) :=
  (quiet_addError place kind message).bind_pure fun _ h => h.elim

/-- What is done after a panic has to be as quiet. -/
theorem Quiet.recover (h : Quiet setting post action) {handler : Crash → Action σ α}
    (hhandler : ∀ crash, Quiet setting post (handler crash)) :
    Quiet setting post (action.recover handler) := by
  intro p r q hrun
  rw [run_recover] at hrun
  cases haction : action.run setting p with
  | mk outcome middle =>
    obtain ⟨hgrows, hpost⟩ := h p outcome middle haction
    rw [haction] at hrun
    cases outcome with
    | ok b =>
      cases hrun
      exact ⟨hgrows, hpost⟩
    | error crash =>
      obtain ⟨hgrows', hpost'⟩ := hhandler crash middle r q hrun
      exact ⟨hgrows.trans hgrows', fun b hb hsize => hpost' b hb (by omega)⟩

/-- **A panic that is caught is recorded**, so it is not quiet. -/
theorem Quiet.recover_record (h : Quiet setting post action) (d : Crash → Diagnostic) (a : α) :
    Quiet setting post (action.recover fun crash => record (d crash) >>= fun _ => pure a) :=
  h.recover fun crash => (quiet_record (d crash)).bind_pure fun _ h => h.elim

theorem Quiet.andFinally (h : Quiet setting post action) {after : Action σ Unit}
    (hafter : Quiet setting (fun _ => True) after) :
    Quiet setting post (action.andFinally after) := by
  unfold Action.andFinally
  refine (h.recover fun crash => hafter.andThen fun _ => quiet_throw crash).bind fun a => ?_
  exact hafter.andThen fun _ => quiet_pure id

theorem quiet_of_noting (h : Noting setting action) : Quiet setting (fun _ => True) action := by
  obtain ⟨result, hnoting⟩ := h
  intro p r q hrun
  cases (hnoting setting.fanOut p).symm.trans hrun
  refine ⟨?_, fun _ _ _ => trivial⟩
  rw [← Array.length_toList, ← Array.length_toList, Progress.errors_notes, List.length_append]
  exact Nat.le_add_right _ _

theorem quiet_reference (name : String) :
    Quiet setting (fun _ => True) (reference name : Action σ Handle) :=
  quiet_modifyGet fun p => by split <;> rfl

theorem quiet_publish (name : String) (v : Value) :
    Quiet setting (fun _ => True) (publish name v : Action σ Unit) :=
  quiet_modifyGet fun p => by
    dsimp only
    split <;> rfl

theorem quiet_withStore (g : Store σ → α × Store σ) :
    Quiet setting (fun _ => True) (withStore g : Action σ α) := quiet_modifyGet fun _ => rfl

/-- What one step does to what was folded up, and so what all do. -/
theorem quiet_foldlM {R : β → β → Prop} (hrefl : ∀ b, R b b)
    (htrans : ∀ a b c, R a b → R b c → R a c) {f : β → α → Action σ β} (xs : List α)
    (h : ∀ b, ∀ x ∈ xs, Quiet setting (R b) (f b x)) (b : β) :
    Quiet setting (R b) (xs.foldlM f b) := by
  induction xs generalizing b with
  | nil => exact quiet_pure (hrefl b)
  | cons x xs ih =>
    rw [List.foldlM_cons]
    refine (h b x List.mem_cons_self).bind fun next => ?_
    exact (ih (fun b y hy => h b y (List.mem_cons_of_mem x hy)) next).mono fun out hout hnext =>
      htrans b next out hnext hout

theorem quiet_perform {β : Type} (place : Place) (loading : Loading β) :
    Quiet setting (fun _ => True) (loading.perform place : Action σ _) := by
  induction loading with
  | done result => exact quiet_pure trivial
  | failed failure =>
    cases failure with
    | error e => exact quiet_pure trivial
    | panic p => exact quiet_crash place p
  | report message next ih => exact (quiet_addError place _ _).andThen fun _ => ih
  | file path next ih =>
    unfold Loading.perform
    refine quiet_read_bind ((quiet_of_noting (noting_resolveFile _ _)).andThen fun found => ?_)
    cases found with
    | ok found => exact ih (some found)
    | error e => exact (quiet_addError place _ _).andThen fun _ => ih none
  | reference name next ih => exact (quiet_reference name).andThen fun h => ih h

/-! ## Walks -/

/-- **What holds where no diagnostic is added is a judgement**, which counts nothing. -/
def quiet : Judgement σ Nat where
  Says setting post action _ := Quiet setting post action
  says_pure := quiet_pure
  says_bind_always halways h hf := h.bind_always halways hf
  says_read_bind := quiet_read_bind
  says_nextWorker := quiet_nextWorker
  says_branch h := h.recover_record _ none

end Action

end ResourceTree
