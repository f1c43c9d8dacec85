import ResourceTree.Object.Use
import ResourceTree.Proofs.Store.Chain

/-!
# Dropping what nothing holds

* `Store.Frees`: some of what neither the user nor the store itself holds is dropped;
* `slot?_frees`, **`isSome_frees_of_kept`**: what is dropped, and what is not;
* `forward_frees`, `leadsTo_frees`: chains that are still in use stay as they are;
* **`frees_dropUnused`**: `dropUnused` drops in this way, some number of times.
-/

namespace ResourceTree

namespace Store

variable {σ : Type} [ObjectClass σ] {s s' : Store σ} {kept : List Link} {g h l : Handle}

/-- Slots and objects that neither `kept` nor the store itself holds may be dropped, and nothing
else changes. -/
structure Frees (kept : List Link) (s s' : Store σ) : Prop where
  slots : ∀ i : Nat, s'.handles.slots[i]? = s.handles.slots[i]? ∨
    (.slot i ∉ kept ∧ .slot i ∉ s.held ∧
      s'.handles.slots[i]? = (s.handles.slots[i]?).map fun _ => none)
  objects : ∀ i : Nat, s'.objects[i]? = s.objects[i]? ∨
    (.object i ∉ kept ∧ .object i ∉ s.held ∧ s'.objects[i]? = (s.objects[i]?).map fun _ => none)

theorem size_frees (hf : Frees kept s s') :
    s'.handles.slots.size = s.handles.slots.size := by
  have hsome : ∀ i, (s'.handles.slots[i]?).isSome = (s.handles.slots[i]?).isSome := fun i => by
    rcases hf.slots i with he | ⟨-, -, he⟩
    · rw [he]
    · rw [he, Option.isSome_map]
  have hlt : ∀ i, i < s'.handles.slots.size ↔ i < s.handles.slots.size := fun i => by
    simpa only [isSome_getElem?] using iff_of_eq (congrArg (· = true) (hsome i))
  exact Nat.le_antisymm (Nat.le_of_not_lt fun h => Nat.lt_irrefl _ ((hlt _).mp h))
    (Nat.le_of_not_lt fun h => Nat.lt_irrefl _ ((hlt _).mpr h))

/-- A slot is as it was, or it is dropped and nothing held it. -/
theorem slot?_frees (hf : Frees kept s s') (g : Handle) :
    s'.handles.slot? g = s.handles.slot? g ∨
      s'.handles.slot? g = none ∧ ∀ i, g.slot = some i → .slot i ∉ kept ∧ .slot i ∉ s.held := by
  cases hg : g.slot with
  | none => simp [Handles.slot?, hg]
  | some i =>
    rcases hf.slots i with he | ⟨hk, hh, he⟩
    · left
      simp only [Handles.slot?, hg, he]
    · right
      refine ⟨?_, fun j hj => by cases hj; exact ⟨hk, hh⟩⟩
      simp only [Handles.slot?, hg, he]
      cases s.handles.slots[i]? <;> rfl

theorem slot?_of_isSome (hf : Frees kept s s') (hg : (s'.handles.slot? g).isSome) :
    s'.handles.slot? g = s.handles.slot? g := by
  rcases slot?_frees hf g with he | ⟨he, -⟩
  · exact he
  · rw [he] at hg
    cases hg

/-- **What the user keeps is not dropped.** -/
theorem isSome_frees_of_kept (hf : Frees kept s s') {i : Nat} (hg : g.slot = some i)
    (hk : .slot i ∈ kept) (hthere : (s.handles.slot? g).isSome) :
    (s'.handles.slot? g).isSome := by
  rcases slot?_frees hf g with he | ⟨-, hnot⟩
  · rwa [he]
  · exact absurd hk (hnot i hg).1

theorem replacement?_of_isSome (hf : Frees kept s s') (hg : (s'.handles.slot? g).isSome) :
    s'.handles.replacement? g = s.handles.replacement? g := by
  rw [Handles.replacement?, Handles.replacement?, slot?_of_isSome hf hg]

theorem mem_held_of_replacement? {i : Nat} (hr : s.handles.replacement? g = some h)
    (hi : h.slot = some i) : .slot i ∈ s.held := by
  rw [Handles.replacement?, Option.bind_eq_some_iff] at hr
  obtain ⟨slot, hslot, hnext⟩ := hr
  have hthere : (s.handles.slot? g).isSome := by rw [hslot]; rfl
  obtain ⟨j, hj⟩ := Handles.slot_isSome_of_slot? hthere
  simp only [Handles.slot?, hj, Option.join_eq_some_iff] at hslot
  refine List.mem_append_left _ (List.mem_flatMap.mpr ⟨some slot, ?_, ?_⟩)
  · exact Array.mem_toList_iff.mpr (Array.mem_of_getElem? hslot)
  · simp [Slot.links, hnext, Handle.links, hi]

theorem forward_frees (hf : Frees kept s s') (hfw : s.handles.Forward) : s'.handles.Forward := by
  intro g r hr
  have hg := Handles.slot?_isSome_of_replacement? hr
  rw [replacement?_of_isSome hf hg] at hr
  obtain ⟨hthere, i, j, hi, hj, hij⟩ := hfw g r hr
  refine ⟨?_, i, j, hi, hj, hij⟩
  rcases slot?_frees hf r with he | ⟨-, hnot⟩
  · rwa [he]
  · exact absurd (mem_held_of_replacement? hr hj) (hnot j hj).2

theorem leadsTo_frees (hf : Frees kept s s') (hfw : s.handles.Forward)
    (hg : (s'.handles.slot? g).isSome) (hl : s.handles.LeadsTo g l) :
    s'.handles.LeadsTo g l := by
  suffices h : s'.handles.LeadsTo g l ∧ (s'.handles.slot? l).isSome from h.1
  induction hl with
  | refl => exact ⟨.refl, hg⟩
  | @tail x y _ hstep ih =>
    have hxy : s'.handles.replacement? x = some y := by
      rw [replacement?_of_isSome hf ih.2, hstep]
    exact ⟨ih.1.tail hxy, (forward_frees hf hfw x y hxy).1⟩

/-! ## The drops of a store -/

theorem getElem?_keepUsed {α : Type} (link : Nat → Link) (used : List Link)
    (entries : Array (Option α)) (i : Nat) :
    (keepUsed link used entries)[i]? = entries[i]? ∨
      (link i ∉ used ∧ (keepUsed link used entries)[i]? = (entries[i]?).map fun _ => none) := by
  simp only [keepUsed, Array.getElem?_mapIdx, List.contains_iff_mem]
  by_cases hi : link i ∈ used
  · left
    simp [hi]
  · right
    simp [hi]

theorem frees_dropOnce : Frees kept s (s.dropOnce kept) where
  slots i := by
    refine (getElem?_keepUsed Link.slot (kept ++ s.held) s.handles.slots i).imp_right fun h => ?_
    rw [List.mem_append, not_or] at h
    exact ⟨h.1.1, h.1.2, h.2⟩
  objects i := by
    refine (getElem?_keepUsed Link.object (kept ++ s.held) s.objects i).imp_right fun h => ?_
    rw [List.mem_append, not_or] at h
    exact ⟨h.1.1, h.1.2, h.2⟩

/-- **A store that drops what is not in use drops only what nothing holds.** -/
theorem frees_dropUnused : Relation.ReflTransGen (Frees kept) s (s.dropUnused kept) := by
  unfold dropUnused
  generalize s.population = times
  induction times generalizing s with
  | zero => exact .refl
  | succ times ih =>
    rw [dropTimes]
    split_ifs
    · exact .refl
    · exact .head frees_dropOnce ih

end Store

end ResourceTree
