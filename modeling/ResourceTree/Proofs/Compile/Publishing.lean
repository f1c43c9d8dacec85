import ResourceTree.Compile.Action
import ResourceTree.Proofs.Dict.Lookup
import ResourceTree.Proofs.Store.Chain

/-!
# Published values — what the handles of names show

A compile has one handle for each name that was asked for or published. Each has a slot of its own,
which nothing replaces as long as the compile goes on, so what is published under one name is shown
by its handle and by no other.

* **`Progress.Referring`**: names have slots of their own; `referring_published`;
  `progress_reference`: to ask for a new name is to publish null under it;
* `shown?`, `published`, **`shown?_published`**: what a name shows after a value was published.
-/

namespace ResourceTree

/-! ## Names and their slots -/

theorem Handles.value_of_slot? {hs : Handles} {h : Handle} {slot : Slot}
    (hslot : hs.slot? h = some slot) (hend : slot.replacement = none) :
    hs.value h = slot.value := by
  have hnone : hs.replacement? h = none := by rw [replacement?, hslot, Option.bind_some, hend]
  rw [value, latest, follow_of_replacement?_eq_none hnone, ownValue, hslot]
  rfl

namespace Progress

variable {σ : Type} {p : Progress σ} {name other : String} {value : Value} {h : Handle}

/-- The handles of names have slots of their own, and nothing replaces them. -/
structure Referring (p : Progress σ) : Prop where
  inUse : ∀ name h, p.references.get? name = some h →
    ∃ slot, p.store.handles.slot? h = some slot ∧ slot.replacement = none
  apart : ∀ name other h h', p.references.get? name = some h → p.references.get? other = some h' →
    h.slot = h'.slot → name = other

theorem referring_initial (s : Store σ) : (Progress.initial s).Referring := ⟨nofun, nofun⟩

/-- What the handle of a name shows. -/
def shown? (p : Progress σ) (name : String) : Option Value :=
  (p.references.get? name).map p.store.handles.value

/-- The progress after a value was published. -/
def published (p : Progress σ) (name : String) (value : Value) : Progress σ :=
  match p.references.get? name with
  | some h => { p with store := p.store.mapHandles fun hs => hs.setValue h value }
  | none =>
    let (h, store) := p.store.newHandle name value
    { p with store, references := p.references.insert name h }

theorem run_publish (setting : Setting σ) :
    (Action.publish name value).run setting p = (.ok (), p.published name value) := rfl

@[simp] theorem objects_published :
    (p.published name value).store.objects = p.store.objects := by
  unfold published
  split <;> rfl

@[simp] theorem errors_published : (p.published name value).errors = p.errors := by
  unfold published
  split <;> rfl

theorem references_published_new (hnew : p.references.get? name = none) :
    (p.published name value).references.get? name =
      some ⟨name, some p.store.handles.slots.size⟩ := by
  unfold published
  rw [hnew]
  exact Dict.get?_insert_self

theorem references_published_of_ne (hne : other ≠ name) :
    (p.published name value).references.get? other = p.references.get? other := by
  unfold published
  split
  · rfl
  · exact Dict.get?_insert.trans (if_neg hne)

theorem references_published (hget : p.references.get? other = some h) :
    (p.published name value).references.get? other = some h := by
  by_cases hname : other = name
  · subst hname
    unfold published
    rw [hget]
    exact hget
  · rwa [references_published_of_ne hname]

/-- No handle has the slot that is made next. -/
theorem Referring.slot_ne (hp : p.Referring) (hget : p.references.get? other = some h) :
    h.slot ≠ some p.store.handles.slots.size := by
  obtain ⟨slot, hslot, -⟩ := hp.inUse other h hget
  intro heq
  rw [Handles.slot?_eq_none_of_size heq (Nat.le_refl _)] at hslot
  cases hslot

theorem slot?_published (hp : p.Referring) (hget : p.references.get? other = some h) :
    (p.published name value).store.handles.slot? h =
      if other = name then (p.store.handles.slot? h).map fun slot => { slot with value }
      else p.store.handles.slot? h := by
  unfold published
  split
  · next known hknown =>
    refine (Handles.slot?_modify _).trans (if_congr ⟨fun hslot => ?_, ?_⟩ rfl rfl)
    · exact hp.apart other name h known hget hknown hslot
    · rintro rfl
      cases hknown.symm.trans hget
      rfl
  · next hnew =>
    have hne : other ≠ name := by
      rintro rfl
      cases hnew.symm.trans hget
    rw [if_neg hne]
    exact Handles.slot?_new.trans (if_neg (hp.slot_ne hget))

/-- The name that was published has a handle, whose slot holds the value. -/
theorem exists_published (hp : p.Referring) (name : String) (value : Value) :
    ∃ h slot, (p.published name value).references.get? name = some h ∧
      (p.published name value).store.handles.slot? h = some slot ∧ slot.value = value ∧
      slot.replacement = none := by
  cases hget : p.references.get? name with
  | some h =>
    obtain ⟨slot, hslot, hend⟩ := hp.inUse name h hget
    refine ⟨h, { slot with value }, references_published hget, ?_, rfl, hend⟩
    rw [slot?_published hp hget, if_pos rfl, hslot]
    rfl
  | none =>
    refine ⟨_, ⟨name, value, none, none⟩, references_published_new hget, ?_, rfl, rfl⟩
    unfold published
    rw [hget]
    exact Handles.slot?_new.trans (if_pos rfl)

/-- **What handles of names show after a value was published.** -/
theorem shown?_published (hp : p.Referring) : (p.published name value).shown? other =
    if other = name then some value else p.shown? other := by
  unfold shown?
  split_ifs with hname
  · obtain ⟨h, slot, hget, hslot, rfl, hend⟩ := exists_published hp name value
    rw [hname, hget, Option.map_some, Handles.value_of_slot? hslot hend]
  · rw [references_published_of_ne hname]
    refine Option.map_congr fun h hget => ?_
    obtain ⟨slot, hslot, hend⟩ := hp.inUse other h hget
    have hslot' : (p.published name value).store.handles.slot? h = p.store.handles.slot? h :=
      (slot?_published hp hget).trans (if_neg hname)
    rw [Handles.value_of_slot? (hslot'.trans hslot) hend, Handles.value_of_slot? hslot hend]

theorem eq_of_slot_published (hp : p.Referring) {h' : Handle}
    (hname : (p.published name value).references.get? name = some h)
    (hother : p.references.get? other = some h') (hslot : h'.slot = h.slot) : other = name := by
  cases hget : p.references.get? name with
  | some known =>
    obtain rfl := Option.some.inj ((references_published hget).symm.trans hname)
    exact hp.apart other name h' known hother hget hslot
  | none =>
    obtain rfl := Option.some.inj ((references_published_new hget).symm.trans hname)
    exact absurd hslot (hp.slot_ne hother)

/-- **Names keep slots of their own when a value is published.** -/
theorem referring_published (hp : p.Referring) : (p.published name value).Referring where
  inUse other h hget := by
    by_cases hname : other = name
    · obtain ⟨h', slot, hget', hslot, -, hend⟩ := exists_published hp name value
      cases hget'.symm.trans (hname ▸ hget)
      exact ⟨slot, hslot, hend⟩
    · rw [references_published_of_ne hname] at hget
      obtain ⟨slot, hslot, hend⟩ := hp.inUse other h hget
      exact ⟨slot, (slot?_published hp hget).trans ((if_neg hname).trans hslot), hend⟩
  apart first second h h' hget hget' hslot := by
    by_cases hfirst : first = name <;> by_cases hsecond : second = name
    · exact hfirst.trans hsecond.symm
    · rw [references_published_of_ne hsecond] at hget'
      exact hfirst.trans (eq_of_slot_published hp (hfirst ▸ hget) hget' hslot.symm).symm
    · rw [references_published_of_ne hfirst] at hget
      exact (eq_of_slot_published hp (hsecond ▸ hget') hget hslot).trans hsecond.symm
    · rw [references_published_of_ne hfirst] at hget
      rw [references_published_of_ne hsecond] at hget'
      exact hp.apart first second h h' hget hget' hslot

/-- A name that is new is asked for as if null were published under it. -/
theorem progress_reference (setting : Setting σ) :
    ((Action.reference name).run setting p).2 =
      if p.references.contains name = true then p else p.published name .null := by
  show (match p.references.get? name with
    | some h => (h, p)
    | none =>
      let (h, store) := p.store.newHandle name .null
      (h, { p with store, references := p.references.insert name h })).2 = _
  unfold published Dict.contains
  cases p.references.get? name <;> rfl

end Progress

end ResourceTree
