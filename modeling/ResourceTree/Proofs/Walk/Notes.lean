import Mathlib.Logic.Function.Basic
import Mathlib.Tactic.Choose
import ResourceTree.Proofs.Compile.Traced
import ResourceTree.Proofs.Store.View
import ResourceTree.Proofs.Walk.Congruence

/-!
# Notes — actions that add to a progress and change nothing else

Some actions only take notes: they record diagnostics and files and number workers. What they come
to depends on what is seen of the handles, not on what happened before, and not on how members are
spread over tasks.

* `Note`, `Progress.notes`: what is added;
* **`Action.Noting`**: an action that only takes notes;
* `noting_pure`, `Noting.bind`, `noting_handles_bind`, `noting_addError`, `noting_resolveFile`,
  `noting_foldlM`, `noting_runSequential`, `noting_runElements`.
-/

namespace ResourceTree

variable {σ α β : Type}

/-- What may be added to a progress. -/
inductive Note where
  | diagnostic (d : Diagnostic)
  | file (path : Path)
  /-- A worker is numbered. -/
  | worker

/-- The diagnostic of a note. -/
def Note.diagnostic? : Note → Option Diagnostic
  | .diagnostic d => some d
  | _ => none

/-- The setting with members spread over tasks in another way. -/
def Setting.withFanOut (s : Setting σ) (fanOut : Option FanOut) : Setting σ := { s with fanOut }

namespace Progress

/-- Adds a note. -/
def note (p : Progress σ) : Note → Progress σ
  | .diagnostic d => { p with errors := p.errors.push d }
  | .file path => { p with files := path.insertSorted p.files }
  | .worker => { p with nextWorker := p.nextWorker + 1 }

/-- Adds notes in turn. -/
def notes (p : Progress σ) (added : List Note) : Progress σ := added.foldl note p

variable {p : Progress σ} {added : List Note}

theorem notes_append (more : List Note) : p.notes (added ++ more) = (p.notes added).notes more :=
  List.foldl_append

@[simp] theorem store_notes : (p.notes added).store = p.store := by
  induction added generalizing p with
  | nil => rfl
  | cons n rest ih => exact ih.trans (by cases n <;> rfl)

@[simp] theorem references_notes : (p.notes added).references = p.references := by
  induction added generalizing p with
  | nil => rfl
  | cons n rest ih => exact ih.trans (by cases n <;> rfl)

/-- Diagnostics are added behind those that are there. -/
theorem errors_notes :
    (p.notes added).errors.toList = p.errors.toList ++ added.filterMap Note.diagnostic? := by
  induction added generalizing p with
  | nil => simp [notes]
  | cons n rest ih =>
    refine ih.trans ?_
    cases n with
    | diagnostic d => simp [note, Note.diagnostic?]
    | _ => rfl

end Progress

namespace Action

variable {setting : Setting σ} {action : Action σ α} {f : α → Action σ β}

/-- **An action that only takes notes.** Whatever came before, and however members are spread over
tasks, it does not break off; its outcome and its notes depend on what handles show. -/
def Noting (setting : Setting σ) (action : Action σ α) : Prop :=
  ∃ result : (Handle → Value) → α × List Note, ∀ fanOut p,
    action.run (setting.withFanOut fanOut) p =
      (.ok (result p.store.handles.value).1, p.notes (result p.store.handles.value).2)

/-! ## One after the other -/

theorem noting_pure (a : α) : Noting setting (pure a : Action σ α) :=
  ⟨fun _ => (a, []), fun _ _ => rfl⟩

theorem Noting.bind (h : Noting setting action) (hf : ∀ a, Noting setting (f a)) :
    Noting setting (action >>= f) := by
  obtain ⟨result, hrun⟩ := h
  choose next hnext using hf
  refine ⟨fun view => ((next (result view).1 view).1,
    (result view).2 ++ (next (result view).1 view).2), fun fanOut p => ?_⟩
  rw [run_bind, hrun, Progress.notes_append]
  dsimp only
  rw [hnext, Progress.store_notes]

/-- What is done with the handles has to be the same wherever they show the same. -/
theorem noting_handles_bind {f : Handles → Action σ α}
    (hf : ∀ hs hs', hs.value = hs'.value → f hs = f hs') (h : ∀ hs, Noting setting (f hs)) :
    Noting setting (handles >>= f) := by
  choose next hnext using h
  refine ⟨fun view => next (Function.invFun Handles.value view) view, fun fanOut p => ?_⟩
  have hseen : (Function.invFun Handles.value p.store.handles.value).value =
      p.store.handles.value := Function.invFun_eq ⟨p.store.handles, rfl⟩
  rw [run_bind, run_handles]
  dsimp only
  rw [← hf _ _ hseen]
  exact hnext _ fanOut p

theorem noting_read_bind {f : Setting σ → Action σ α}
    (hf : ∀ fanOut, f (setting.withFanOut fanOut) = f setting) (h : Noting setting (f setting)) :
    Noting setting (read >>= f) := by
  obtain ⟨result, hrun⟩ := h
  refine ⟨result, fun fanOut p => ?_⟩
  rw [run_read_bind, hf]
  exact hrun fanOut p

theorem noting_addError (place : Place) (kind : Diagnostic.Kind) (message : String) :
    Noting setting (addError place kind message : Action σ Unit) :=
  ⟨fun _ => ((), [.diagnostic ⟨kind, place.pathText, message⟩]), fun _ _ => rfl⟩

/-- A worker whose number makes no difference. -/
theorem Noting.after_nextWorker (h : Noting setting action) :
    Noting setting (nextWorker >>= fun _ => action) := by
  obtain ⟨result, hrun⟩ := h
  exact ⟨fun view => ((result view).1, .worker :: (result view).2), fun fanOut p =>
    (hrun fanOut (p.note .worker)).trans rfl⟩

theorem noting_resolveFile (dir : Path) (raw : String) :
    Noting setting (resolveFile dir raw : Action σ _) := by
  cases hfound : setting.files.canonicalize (dir.join raw) with
  | error e =>
    exact ⟨fun _ => (.error e, []), fun fanOut p => (run_resolveFile dir raw _ p).trans (by
      rw [Setting.withFanOut, hfound]
      rfl)⟩
  | ok path =>
    exact ⟨fun _ => (.ok path, [.file path]), fun fanOut p => (run_resolveFile dir raw _ p).trans (by
      rw [Setting.withFanOut, hfound]
      rfl)⟩

/-! ## Walks -/

theorem noting_foldlM {f : β → α → Action σ β} (xs : List α)
    (h : ∀ b, ∀ x ∈ xs, Noting setting (f b x)) (b : β) : Noting setting (xs.foldlM f b) := by
  induction xs generalizing b with
  | nil => exact noting_pure b
  | cons x xs ih =>
    rw [List.foldlM_cons]
    exact (h b x List.mem_cons_self).bind
      (ih fun b y hy => h b y (List.mem_cons_of_mem x hy))

variable {visit : Value → Visit σ}

theorem noting_runSequential (place : Place) {entries : List (String × Value)}
    (h : ∀ entry ∈ entries, Noting setting (visit entry.2 (place.member entry.1))) :
    Noting setting (place.runSequential (entries.map (Prod.map id visit))) := by
  unfold Place.runSequential
  rw [List.foldlM_map]
  exact noting_foldlM entries
    (fun _ entry hentry => (h entry hentry).bind fun _ => noting_pure _) ∅

theorem noting_runElements (place : Place) {items : List Value} (index : Nat)
    (h : ∀ item ∈ items, ∀ i, Noting setting (visit item (place.element i))) :
    Noting setting (place.runElements index (items.map visit)) := by
  induction items generalizing index with
  | nil => exact noting_pure []
  | cons item rest ih =>
    obtain ⟨hitem, hrest⟩ := List.forall_mem_cons.mp h
    exact (hitem index).bind fun _ => (ih (index + 1) hrest).bind fun _ => noting_pure _

end Action

end ResourceTree
