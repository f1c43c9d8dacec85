import ResourceTree.Proofs.Walk.Judgement
import ResourceTree.Proofs.Walk.Notes

/-!
# Known notes — actions with an outcome and notes that can be written down

Some actions come to the same outcome with the same notes, whatever came before them. Where that is
so of all visits of a walk, it is so of the walk: its notes are the notes of its visits, one after
the other.

* **`Action.Takes`**: an action that comes to one outcome and takes some notes;
* `takes_pure`, `Takes.bind`, `takes_nextWorker_bind`, `takes_addError`, `takes_resolveFile`;
* `takes_foldlM`, **`takes_runSequential`**, **`takes_runElements`**: walks.
-/

namespace ResourceTree

namespace Action

variable {σ α β : Type} {setting : Setting σ} {added more : List Note} {a : α} {b : β}
  {action : Action σ α} {f : α → Action σ β}

/-- **An action that comes to `a` and takes some notes**, whatever came before. -/
def Takes (setting : Setting σ) (added : List Note) (a : α) (action : Action σ α) : Prop :=
  ∀ p : Progress σ, action.run setting p = (.ok a, p.notes added)

/-! ## One after the other -/

theorem takes_pure (a : α) : Takes setting [] a (pure a) := fun _ => rfl

theorem Takes.bind (h : Takes setting added a action) (hf : Takes setting more b (f a)) :
    Takes setting (added ++ more) b (action >>= f) := fun p => by
  rw [run_bind_of_ok (h p), hf, Progress.notes_append]

theorem Takes.bind_pure (h : Takes setting added a action) (g : α → β) :
    Takes setting added (g a) (action >>= fun a => pure (g a)) := fun p => run_bind_of_ok (h p)

theorem takes_nextWorker_bind {f : Nat → Action σ β} (h : ∀ n, Takes setting added b (f n)) :
    Takes setting (.worker :: added) b (nextWorker >>= f) := fun p =>
  h p.nextWorker (p.note .worker)

theorem takes_addError (place : Place) (kind : Diagnostic.Kind) (message : String) :
    Takes setting [.diagnostic ⟨kind, place.pathText, message⟩] ()
      (addError place kind message) := fun _ => rfl

theorem takes_resolveFile (dir : Path) (raw : String) :
    Takes setting ((setting.files.canonicalize (dir.join raw)).toOption.map Note.file).toList
      (setting.files.canonicalize (dir.join raw)) (resolveFile dir raw) := by
  intro p
  rw [run_resolveFile]
  cases setting.files.canonicalize (dir.join raw) <;> rfl

/-! ## Walks -/

theorem takes_foldlM {f : β → α → Action σ β} {g : β → α → β} {notes : α → List Note} (xs : List α)
    (h : ∀ b, ∀ x ∈ xs, Takes setting (notes x) (g b x) (f b x)) (b : β) :
    Takes setting (xs.flatMap notes) (xs.foldl g b) (xs.foldlM f b) := by
  induction xs generalizing b with
  | nil => exact takes_pure b
  | cons x xs ih =>
    rw [List.foldlM_cons, List.flatMap_cons]
    exact (h b x List.mem_cons_self).bind (ih (fun b y hy => h b y (List.mem_cons_of_mem x hy)) _)

variable {visit : Value → Visit σ} {form : Value → Option Value} {place : Place}

/-- **Members one after another.** -/
theorem takes_runSequential {entries : List (String × Value)} {notes : String × Value → List Note}
    (h : ∀ entry ∈ entries,
      Takes setting (notes entry) (form entry.2) (visit entry.2 (place.member entry.1))) :
    Takes setting (entries.flatMap notes)
      (Place.collect ∅ (entries.map fun entry => (entry, form entry.2)))
      (place.runSequential (entries.map (Prod.map id visit))) := by
  unfold Place.runSequential Place.collect
  rw [List.foldlM_map, List.foldl_map]
  exact takes_foldlM entries (fun out entry hentry => (h entry hentry).bind_pure _) ∅

/-- **Elements one after another**, each with its number. -/
theorem takes_runElements {items : List Value} {notes : Value × Nat → List Note} (index : Nat)
    (h : ∀ item ∈ items, ∀ i,
      Takes setting (notes (item, i)) (form item) (visit item (place.element i))) :
    Takes setting ((items.zipIdx index).flatMap notes) (items.filterMap form)
      (place.runElements index (items.map visit)) := by
  induction items generalizing index with
  | nil => exact takes_pure []
  | cons item rest ih =>
    obtain ⟨hitem, hrest⟩ := List.forall_mem_cons.mp h
    have hforms : (item :: rest).filterMap form = (form item).toList ++ rest.filterMap form := by
      cases hform : form item with
      | none => rw [List.filterMap_cons_none hform]; rfl
      | some w => rw [List.filterMap_cons_some hform]; rfl
    rw [hforms, List.zipIdx_cons, List.flatMap_cons]
    exact (hitem index).bind ((ih (index + 1) hrest).bind_pure _)

end Action

end ResourceTree
