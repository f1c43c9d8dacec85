import Mathlib.Logic.Relation
import Mathlib.Tactic.ByContra
import Mathlib.Tactic.SplitIfs
import ResourceTree.Store.Basic

/-!
# Chains of replacements

* what changes of slots do to a slot: `slot?_new`, `slot?_setOwner`, `slot?_invalidate`;
* `Handles.LeadsTo`: one handle stands behind another in a chain of replacements;
* `Handles.Forward`: a replacement is newer than what it replaces, and is there as long as it;
* **`latest_eq`**, `replacement?_latest`: a chain whose replacements point forward ends where
  `latest` says;
* `Handles.Adds`: a new slot behind one that is in use; `Adds.forward`, `Adds.leadsTo`;
* `Handles.Alike`: slots that differ in their owners only.
-/

namespace ResourceTree

namespace Handles

variable {hs hs' : Handles} {g h l newer : Handle} {name : String} {value : Value}

/-! ## Slots after a change -/

theorem slot?_eq_none_of_size {i : Nat} (hg : g.slot = some i) (hi : hs.slots.size ≤ i) :
    hs.slot? g = none := by
  simp only [slot?, hg, Array.getElem?_eq_none hi, Option.join_none]

theorem lt_size_of_slot? {i : Nat} (hg : g.slot = some i) (hthere : (hs.slot? g).isSome) :
    i < hs.slots.size := by
  by_contra hi
  rw [slot?_eq_none_of_size hg (Nat.le_of_not_lt hi)] at hthere
  exact Bool.noConfusion hthere

theorem slot?_congr (hslot : g.slot = h.slot) : hs.slot? g = hs.slot? h := by
  simp only [slot?, hslot]

theorem slot_isSome_of_slot? (hg : (hs.slot? g).isSome) : ∃ i, g.slot = some i := by
  cases hslot : g.slot with
  | none => simp [slot?, hslot] at hg
  | some i => exact ⟨i, rfl⟩

theorem size_new : (hs.new name value).2.slots.size = hs.slots.size + 1 := Array.size_push _

theorem slot?_new : (hs.new name value).2.slot? g =
    if g.slot = some hs.slots.size then some ⟨name, value, none, none⟩ else hs.slot? g := by
  cases hslot : g.slot with
  | none => simp [slot?, hslot]
  | some i =>
    simp only [slot?, hslot, new, Array.getElem?_push, Option.some.injEq]
    split_ifs <;> rfl

theorem size_modify (f : Slot → Slot) : (hs.modify h f).slots.size = hs.slots.size := by
  unfold modify
  split <;> simp

theorem slot?_modify (f : Slot → Slot) : (hs.modify h f).slot? g =
    if g.slot = h.slot then (hs.slot? g).map f else hs.slot? g := by
  cases hg : g.slot with
  | none => simp [slot?, hg]
  | some i =>
    cases hh : h.slot with
    | none => simp [slot?, modify, hg, hh]
    | some j =>
      simp only [slot?, modify, hg, hh, Array.getElem?_modify, Option.some.injEq]
      by_cases hij : j = i
      · rw [if_pos hij, if_pos hij.symm]
        cases hs.slots[i]? <;> rfl
      · rw [if_neg hij, if_neg (Ne.symm hij)]

theorem size_setOwner (o : Option Nat) : (hs.setOwner h o).slots.size = hs.slots.size :=
  size_modify _

theorem slot?_setOwner (o : Option Nat) : (hs.setOwner h o).slot? g =
    if g.slot = h.slot then (hs.slot? g).map fun slot => { slot with owner := o }
    else hs.slot? g :=
  slot?_modify _

theorem replacement?_setOwner (o : Option Nat) :
    (hs.setOwner h o).replacement? g = hs.replacement? g := by
  rw [replacement?, slot?_setOwner, replacement?]
  split_ifs
  · cases hs.slot? g <;> rfl
  · rfl

theorem size_invalidate : (hs.invalidate h newer).slots.size = hs.slots.size := by
  unfold invalidate
  split_ifs
  · rfl
  · exact size_modify _

theorem follow_of_replacement?_eq_none (hl : hs.replacement? l = none) (n : Nat) :
    hs.follow n l = l := by
  cases n with
  | zero => rfl
  | succ n => rw [follow, hl]

theorem slot?_invalidate (hnewer : hs.replacement? newer = none) (hne : newer.slot ≠ h.slot) :
    (hs.invalidate h newer).slot? g =
      if g.slot = h.slot then (hs.slot? g).map fun slot => { slot with replacement := some newer }
      else hs.slot? g := by
  have hlatest : hs.latest newer = newer := follow_of_replacement?_eq_none hnewer _
  rw [invalidate, hlatest, if_neg hne, slot?_modify]

/-! ## Chains -/

/-- The second handle stands behind the first, any number of replacements away. -/
def LeadsTo (hs : Handles) : Handle → Handle → Prop :=
  Relation.ReflTransGen fun g h => hs.replacement? g = some h

/-- Whatever replaces a slot is newer and is there. -/
def Forward (hs : Handles) : Prop :=
  ∀ g h, hs.replacement? g = some h →
    (hs.slot? h).isSome ∧ ∃ i j, g.slot = some i ∧ h.slot = some j ∧ i < j

theorem slot?_isSome_of_replacement? (hg : hs.replacement? g = some h) : (hs.slot? g).isSome := by
  rw [replacement?, Option.bind_eq_some_iff] at hg
  obtain ⟨slot, hslot, -⟩ := hg
  simp [hslot]

theorem Forward.isSome_of_leadsTo (hf : hs.Forward) (hl : hs.LeadsTo g l)
    (hg : (hs.slot? g).isSome) : (hs.slot? l).isSome := by
  induction hl with
  | refl => exact hg
  | tail _ hstep _ => exact (hf _ _ hstep).1

/-- So many steps are enough as there are slots after the first of the chain. -/
theorem Forward.follow_eq (hf : hs.Forward) (hl : hs.LeadsTo g l)
    (hend : hs.replacement? l = none) :
    ∀ n, (∀ i, g.slot = some i → hs.slots.size ≤ n + i) → hs.follow n g = l := by
  induction hl using Relation.ReflTransGen.head_induction_on with
  | refl => exact fun n _ => follow_of_replacement?_eq_none hend n
  | @head g r hstep _ ih =>
    intro n hn
    obtain ⟨hr, i, j, hi, hj, hij⟩ := hf _ _ hstep
    have hlt := lt_size_of_slot? hi (slot?_isSome_of_replacement? hstep)
    have hle := hn i hi
    obtain ⟨m, rfl⟩ : ∃ m, n = m + 1 := ⟨n - 1, by omega⟩
    rw [follow, hstep]
    refine ih m fun k hk => ?_
    rw [hj, Option.some.injEq] at hk
    omega

/-- **The end of a chain is its latest handle.** -/
theorem Forward.latest_eq (hf : hs.Forward) (hl : hs.LeadsTo g l)
    (hend : hs.replacement? l = none) : hs.latest g = l :=
  hf.follow_eq hl hend _ fun _ _ => Nat.le_add_right _ _

/-- So many steps are enough to come to a handle that nothing replaces. -/
theorem Forward.replacement?_follow (hf : hs.Forward) :
    ∀ n g, (∀ i, g.slot = some i → hs.slots.size ≤ n + i) →
      hs.replacement? (hs.follow n g) = none := by
  intro n
  induction n with
  | zero =>
    intro g hn
    rw [follow, Option.eq_none_iff_forall_ne_some]
    intro r hr
    obtain ⟨-, i, -, hi, -⟩ := hf _ _ hr
    have hlt := lt_size_of_slot? hi (slot?_isSome_of_replacement? hr)
    have hle := hn i hi
    omega
  | succ n ih =>
    intro g hn
    rw [follow]
    cases hr : hs.replacement? g with
    | none => exact hr
    | some r =>
      obtain ⟨-, i, j, hi, hj, hij⟩ := hf _ _ hr
      have hle := hn i hi
      refine ih r fun k hk => ?_
      rw [hj, Option.some.injEq] at hk
      omega

/-- **Nothing replaces the latest handle of a chain.** -/
theorem Forward.replacement?_latest (hf : hs.Forward) (g : Handle) :
    hs.replacement? (hs.latest g) = none :=
  hf.replacement?_follow _ g fun _ _ => Nat.le_add_right _ _

/-! ## A new slot behind one that is in use -/

/-- The new handles have one slot more, with the given value, behind `old` if that is given. Owners
may differ as well. -/
structure Adds (hs hs' : Handles) (h : Handle) (value : Value) (old : Option Handle) : Prop where
  slot : h.slot = some hs.slots.size
  size : hs'.slots.size = hs.slots.size + 1
  fresh : (hs'.slot? h).map (fun s => (s.name, s.value, s.replacement)) = some (h.name, value, none)
  kept : ∀ g, g.slot ≠ h.slot → (hs'.slot? g).map (fun s => (s.name, s.value)) =
    (hs.slot? g).map fun s => (s.name, s.value)
  behind : ∀ o, old = some o → (hs.slot? o).isSome ∧ hs'.replacement? o = some h
  next : ∀ g, g.slot ≠ h.slot → (∀ o, old = some o → g.slot ≠ o.slot) →
    hs'.replacement? g = hs.replacement? g

variable {old : Option Handle}

theorem adds_new (hs : Handles) (name : String) (value : Value) :
    Adds hs (hs.new name value).2 ⟨name, some hs.slots.size⟩ value none where
  slot := rfl
  size := size_new
  fresh := by rw [slot?_new, if_pos rfl]; rfl
  kept g hg := by rw [slot?_new, if_neg hg]
  behind _ ho := by cases ho
  next g hg _ := by rw [replacement?, slot?_new, if_neg hg, replacement?]

theorem Adds.setOwner (ha : Adds hs hs' h value old) (o : Option Nat) :
    Adds hs (hs'.setOwner l o) h value old where
  slot := ha.slot
  size := (size_setOwner o).trans ha.size
  fresh := by
    rw [← ha.fresh, slot?_setOwner]
    split_ifs
    · rw [Option.map_map]; rfl
    · rfl
  kept g hg := by
    rw [← ha.kept g hg, slot?_setOwner]
    split_ifs
    · rw [Option.map_map]; rfl
    · rfl
  behind o ho := ⟨(ha.behind o ho).1, (replacement?_setOwner _).trans (ha.behind o ho).2⟩
  next g hg hne := (replacement?_setOwner _).trans (ha.next g hg hne)

namespace Adds

variable (ha : Adds hs hs' h value old)

include ha

/-- A handle with a lower number is not the new one. -/
theorem slot_ne_of_lt {i : Nat} (hg : g.slot = some i) (hi : i < hs.slots.size) :
    g.slot ≠ h.slot := by
  rw [hg, ha.slot, ne_eq, Option.some.injEq]
  exact Nat.ne_of_lt hi

/-- A slot that was there is not the new one. -/
theorem slot_ne (hg : (hs.slot? g).isSome) : g.slot ≠ h.slot := by
  obtain ⟨i, hi⟩ := slot_isSome_of_slot? hg
  exact ha.slot_ne_of_lt hi (lt_size_of_slot? hi hg)

theorem isSome_self : (hs'.slot? h).isSome := by
  obtain ⟨slot, hslot, -⟩ := Option.map_eq_some_iff.mp ha.fresh
  simp [hslot]

theorem replacement?_self : hs'.replacement? h = none := by
  obtain ⟨slot, hslot, heq⟩ := Option.map_eq_some_iff.mp ha.fresh
  simp only [Prod.mk.injEq] at heq
  simp [replacement?, hslot, heq]

theorem ownValue_self : hs'.ownValue h = value := by
  obtain ⟨slot, hslot, heq⟩ := Option.map_eq_some_iff.mp ha.fresh
  simp only [Prod.mk.injEq] at heq
  simp [ownValue, hslot, heq]

theorem isSome_iff (hg : g.slot ≠ h.slot) : (hs'.slot? g).isSome ↔ (hs.slot? g).isSome := by
  have hkept := congrArg Option.isSome (ha.kept g hg)
  rw [Option.isSome_map, Option.isSome_map] at hkept
  rw [hkept]

theorem ownValue_eq (hg : g.slot ≠ h.slot) : hs'.ownValue g = hs.ownValue g := by
  have hkept := congrArg (Option.map Prod.snd) (ha.kept g hg)
  rw [Option.map_map, Option.map_map] at hkept
  exact congrArg (Option.getD · Value.null) hkept

/-- The new slot replaces one that was there. -/
theorem invalidate {o : Handle} (hnone : old = none) (ho : (hs.slot? o).isSome) :
    Adds hs (hs'.invalidate o h) h value (some o) := by
  subst hnone
  have hne : h.slot ≠ o.slot := (ha.slot_ne ho).symm
  have hslot : ∀ g, (hs'.invalidate o h).slot? g = if g.slot = o.slot then
      (hs'.slot? g).map (fun slot => { slot with replacement := some h }) else hs'.slot? g :=
    fun g => slot?_invalidate ha.replacement?_self hne
  refine ⟨ha.slot, size_invalidate.trans ha.size, ?_, fun g hg => ?_, ?_, fun g hg hgo => ?_⟩
  · rw [hslot, if_neg hne, ha.fresh]
  · rw [← ha.kept g hg, hslot]
    split_ifs
    · rw [Option.map_map]; rfl
    · rfl
  · rintro _ ⟨⟩
    obtain ⟨slot, hs⟩ := Option.isSome_iff_exists.mp ((ha.isSome_iff hne.symm).mpr ho)
    exact ⟨ho, by simp [replacement?, hslot, hs]⟩
  · rw [replacement?, hslot, if_neg (hgo o rfl), ← replacement?]
    exact ha.next g hg fun _ h => by cases h

theorem forward (hf : hs.Forward) : hs'.Forward := by
  intro g r hr
  have hg : g.slot ≠ h.slot := fun he => by
    rw [replacement?, slot?_congr he, ← replacement?, ha.replacement?_self] at hr
    cases hr
  by_cases hold : ∃ o, old = some o ∧ g.slot = o.slot
  · obtain ⟨o, ho, hgo⟩ := hold
    obtain ⟨hthere, hnext⟩ := ha.behind o ho
    obtain rfl : h = r := by
      rw [replacement?, slot?_congr hgo, ← replacement?, hnext] at hr
      exact Option.some.inj hr
    obtain ⟨i, hi⟩ := slot_isSome_of_slot? hthere
    exact ⟨ha.isSome_self, i, _, hgo.trans hi, ha.slot, lt_size_of_slot? hi hthere⟩
  · rw [ha.next g hg fun o ho he => hold ⟨o, ho, he⟩] at hr
    obtain ⟨hthere, hij⟩ := hf g r hr
    exact ⟨(ha.isSome_iff (ha.slot_ne hthere)).mpr hthere, hij⟩

/-- The replaced slot had no replacement, so all chains that were there are there still. -/
theorem leadsTo (hend : ∀ o, old = some o → hs.replacement? o = none) (hl : hs.LeadsTo g l) :
    hs'.LeadsTo g l := by
  refine Relation.ReflTransGen.mono (fun x y hxy => ?_) _ _ hl
  have hx : x.slot ≠ h.slot := ha.slot_ne (slot?_isSome_of_replacement? hxy)
  rw [ha.next x hx fun o ho he => ?_, hxy]
  rw [replacement?, slot?_congr he, ← replacement?, hend o ho] at hxy
  cases hxy

theorem leadsTo_self (o : Handle) (ho : old = some o) : hs'.LeadsTo o h :=
  Relation.ReflTransGen.single (ha.behind o ho).2

end Adds

/-! ## Owners -/

/-- The slots differ in their owners only. -/
structure Alike (hs hs' : Handles) : Prop where
  size : hs'.slots.size = hs.slots.size
  slot? : ∀ g, (hs'.slot? g).map (fun s => (s.name, s.value, s.replacement)) =
    (hs.slot? g).map fun s => (s.name, s.value, s.replacement)

theorem alike_refl : hs.Alike hs := ⟨rfl, fun _ => rfl⟩

theorem alike_setOwner (o : Option Nat) : hs.Alike (hs.setOwner h o) where
  size := size_setOwner o
  slot? g := by
    rw [slot?_setOwner]
    split_ifs
    · rw [Option.map_map]; rfl
    · rfl

namespace Alike

variable {hs'' : Handles} (ha : hs.Alike hs')

include ha

theorem trans (hb : hs'.Alike hs'') : hs.Alike hs'' :=
  ⟨hb.size.trans ha.size, fun g => (hb.slot? g).trans (ha.slot? g)⟩

theorem isSome_eq : (hs'.slot? g).isSome = (hs.slot? g).isSome := by
  have h := congrArg Option.isSome (ha.slot? g)
  rwa [Option.isSome_map, Option.isSome_map] at h

theorem replacement?_eq : hs'.replacement? g = hs.replacement? g := by
  have h := congrArg (Option.bind · fun s => s.2.2) (ha.slot? g)
  rwa [Option.bind_map, Option.bind_map] at h

theorem forward (hf : hs.Forward) : hs'.Forward := by
  intro g r hr
  rw [ha.replacement?_eq] at hr
  rw [ha.isSome_eq]
  exact hf g r hr

end Alike

end Handles

end ResourceTree
