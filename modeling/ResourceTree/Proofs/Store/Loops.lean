import Mathlib.Data.Finset.Card
import Mathlib.Data.Nat.Find
import ResourceTree.Proofs.Store.View

/-!
# Loops — when a chain of replacements never ends

Putting a handle behind another looks at the end of the new chain only: what ends at the handle
itself is refused. A handle in the middle of a chain can still be put behind itself.

* `Handles.Ends`, **`chainsEnd_iff`**: a chain that ends has no more replacements than there are
  slots;
* `Handles.TurnsBack`: a replaced handle is put behind itself;
* **`chainsEnd_invalidate_iff`**: nothing else makes a loop;
* `Handles.Call`, `Handles.run`, **`run_ends_iff`**: chains end through a whole history exactly when
  no call of it turns back.
-/

namespace ResourceTree

namespace Handles

variable {hs hs' : Handles} {g h l newer : Handle}

/-! ## Chains that end -/

/-- Following replacements comes to a handle that nothing replaces. -/
def Ends (hs : Handles) (g : Handle) : Prop := ∃ n, hs.replacement? (hs.follow n g) = none

theorem replacement?_congr (hslot : g.slot = h.slot) : hs.replacement? g = hs.replacement? h := by
  rw [replacement?, slot?_congr hslot, replacement?]

theorem follow_add (m n : Nat) (g : Handle) :
    hs.follow (m + n) g = hs.follow n (hs.follow m g) := by
  induction m generalizing g with
  | zero => rw [Nat.zero_add, follow]
  | succ m ih =>
    rw [Nat.succ_add, follow, follow]
    cases hnext : hs.replacement? g with
    | none => exact (follow_of_replacement?_eq_none hnext n).symm
    | some next => exact ih next

theorem leadsTo_follow (n : Nat) (g : Handle) : hs.LeadsTo g (hs.follow n g) := by
  induction n generalizing g with
  | zero => exact .refl
  | succ n ih =>
    rw [follow]
    cases hnext : hs.replacement? g with
    | none => exact .refl
    | some next => exact .head hnext (ih next)

theorem follow_succ_congr (hslot : g.slot = h.slot) (hr : (hs.replacement? g).isSome) (n : Nat) :
    hs.follow (n + 1) g = hs.follow (n + 1) h := by
  obtain ⟨r, hr⟩ := Option.isSome_iff_exists.mp hr
  rw [follow, follow, ← replacement?_congr hslot, hr]

/-- Before a chain first ends, no slot comes twice: it would bring the end forward. -/
theorem slot_follow_ne {i j n : Nat} (hend : hs.replacement? (hs.follow n g) = none)
    (hgoes : ∀ i < n, (hs.replacement? (hs.follow i g)).isSome) (hij : i < j) (hjn : j < n) :
    (hs.follow i g).slot ≠ (hs.follow j g).slot := by
  intro hsame
  obtain ⟨k, rfl⟩ : ∃ k, n = j + (k + 1) := ⟨n - j - 1, by omega⟩
  have hearly : hs.follow (i + (k + 1)) g = hs.follow (j + (k + 1)) g := by
    rw [follow_add i, follow_add j]
    exact follow_succ_congr hsame (hgoes i (by omega)) k
  have hgo := hgoes (i + (k + 1)) (by omega)
  rw [hearly, hend] at hgo
  cases hgo

/-- **A chain that ends has no more replacements than there are slots**, so that `latest` finds its
end. -/
theorem Ends.replacement?_latest (h : hs.Ends g) : hs.replacement? (hs.latest g) = none := by
  classical
  let n := Nat.find h
  have hend : hs.replacement? (hs.follow n g) = none := Nat.find_spec h
  have hgoes : ∀ i < n, (hs.replacement? (hs.follow i g)).isSome := fun i hi =>
    Option.isSome_iff_ne_none.mpr (Nat.find_min h hi)
  have hslot : ∀ i < n, ∃ j < hs.slots.size, (hs.follow i g).slot = some j := fun i hi => by
    obtain ⟨r, hr⟩ := Option.isSome_iff_exists.mp (hgoes i hi)
    have hthere := slot?_isSome_of_replacement? hr
    obtain ⟨j, hj⟩ := slot_isSome_of_slot? hthere
    exact ⟨j, lt_size_of_slot? hj hthere, hj⟩
  choose! slotAt hlt hslotAt using hslot
  have hle : n ≤ hs.slots.size := by
    have hcard := Finset.card_le_card_of_injOn (s := Finset.range n)
      (t := Finset.range hs.slots.size) slotAt
    simp only [Finset.coe_range, Finset.card_range] at hcard
    refine hcard (fun i hi => hlt i hi) ?_
    intro i hi j hj heq
    have hsame : (hs.follow i g).slot = (hs.follow j g).slot := by
      rw [hslotAt i hi, hslotAt j hj, heq]
    rcases Nat.lt_trichotomy i j with hij | hij | hij
    · exact absurd hsame (slot_follow_ne hend hgoes hij hj)
    · exact hij
    · exact absurd hsame.symm (slot_follow_ne hend hgoes hij hi)
  obtain ⟨k, hk⟩ := Nat.exists_eq_add_of_le hle
  rw [latest, hk, follow_add, follow_of_replacement?_eq_none hend, hend]

theorem chainsEnd_iff : hs.ChainsEnd ↔ ∀ g, hs.Ends g :=
  ⟨fun hc g => ⟨_, hc g⟩, fun he g => (he g).replacement?_latest⟩

theorem Ends.of_replacement? (hr : hs.replacement? g = some l) (h : hs.Ends l) : hs.Ends g := by
  obtain ⟨n, hn⟩ := h
  exact ⟨n + 1, by rw [follow, hr]; exact hn⟩

theorem latest_eq_of_leadsTo (hc : hs.ChainsEnd) (hl : hs.LeadsTo g l)
    (hend : hs.replacement? l = none) : hs.latest g = l := by
  have hunique : Relator.RightUnique fun g h => hs.replacement? g = some h :=
    fun _ _ _ hr hr' => Option.some.inj (hr.symm.trans hr')
  have hstay : ∀ {x y}, hs.replacement? x = none → hs.LeadsTo x y → x = y := by
    intro x y hx hxy
    rcases Relation.ReflTransGen.cases_head hxy with heq | ⟨r, hr, -⟩
    · exact heq
    · rw [hx] at hr
      cases hr
  rcases Relation.ReflTransGen.total_of_right_unique hunique (leadsTo_follow _ g) hl with h | h
  · exact hstay (hc g) h
  · exact (hstay hend h).symm

/-- Chains still end when every handle keeps its replacement or gets one whose chain ends. -/
theorem ChainsEnd.of_replacement? (hc : hs.ChainsEnd)
    (h : ∀ g, hs'.replacement? g = hs.replacement? g ∨
      ∃ r, hs'.replacement? g = some r ∧ hs'.Ends r) : hs'.ChainsEnd := by
  refine chainsEnd_iff.mpr fun g => ?_
  have hl : hs.LeadsTo g (hs.latest g) := leadsTo_follow _ g
  have hend := hc g
  generalize hs.latest g = l at hl hend
  induction hl using Relation.ReflTransGen.head_induction_on with
  | refl =>
    rcases h l with hsame | ⟨r, hr, hends⟩
    · exact ⟨0, hsame.trans hend⟩
    · exact .of_replacement? hr hends
  | @head g r hr _ ih =>
    rcases h g with hsame | ⟨r', hr', hends⟩
    · exact .of_replacement? (hsame.trans hr) ih
    · exact .of_replacement? hr' hends

/-! ## One call -/

/-- A chain comes by the slot of a handle. -/
def ComesBy (hs : Handles) (h g : Handle) : Prop := ∃ l, hs.LeadsTo g l ∧ l.slot = h.slot

/-- A handle that is already replaced is put behind one whose chain comes by it. -/
def TurnsBack (hs : Handles) (h newer : Handle) : Prop :=
  hs.isInvalidated h = true ∧ hs.ComesBy h newer

theorem ComesBy.step (hg : hs.ComesBy h g) :
    g.slot = h.slot ∨ ∃ r, hs.replacement? g = some r ∧ hs.ComesBy h r := by
  obtain ⟨l, hl, hslot⟩ := hg
  rcases Relation.ReflTransGen.cases_head hl with rfl | ⟨r, hr, hl⟩
  · exact .inl hslot
  · exact .inr ⟨r, hr, l, hl, hslot⟩

theorem replacement?_invalidate (hthere : (hs.slot? h).isSome)
    (hne : (hs.latest newer).slot ≠ h.slot) : (hs.invalidate h newer).replacement? g =
      if g.slot = h.slot then some newer else hs.replacement? g := by
  rw [invalidate, if_neg hne, replacement?, slot?_modify]
  split_ifs with hslot
  · obtain ⟨slot, hslot'⟩ := Option.isSome_iff_exists.mp hthere
    rw [slot?_congr hslot, hslot']
    rfl
  · rfl

/-- **A call that turns back makes a loop**: from the handle that was put behind, there is always a
replacement. -/
theorem TurnsBack.not_ends (hc : hs.ChainsEnd) (hturn : hs.TurnsBack h newer) :
    ¬ (hs.invalidate h newer).Ends newer := by
  obtain ⟨hreplaced, hcomes⟩ := hturn
  have hthere : (hs.slot? h).isSome := by
    obtain ⟨r, hr⟩ := Option.isSome_iff_exists.mp hreplaced
    exact slot?_isSome_of_replacement? hr
  have hne : (hs.latest newer).slot ≠ h.slot := fun heq => by
    rw [isInvalidated, ← replacement?_congr heq, hc] at hreplaced
    cases hreplaced
  have hnext : ∀ g, hs.ComesBy h g → ∃ r,
      (hs.invalidate h newer).replacement? g = some r ∧ hs.ComesBy h r := by
    intro g hg
    rw [replacement?_invalidate hthere hne]
    split_ifs with hslot
    · exact ⟨newer, rfl, hcomes⟩
    · exact hg.step.resolve_left hslot
  have hgoes : ∀ n g, hs.ComesBy h g →
      ((hs.invalidate h newer).replacement? ((hs.invalidate h newer).follow n g)).isSome := by
    intro n
    induction n with
    | zero =>
      intro g hg
      obtain ⟨r, hr, -⟩ := hnext g hg
      exact Option.isSome_iff_exists.mpr ⟨r, hr⟩
    | succ n ih =>
      intro g hg
      obtain ⟨r, hr, hcomes⟩ := hnext g hg
      rw [follow, hr]
      exact ih r hcomes
  rintro ⟨n, hn⟩
  have hgo := hgoes n newer hcomes
  rw [hn] at hgo
  cases hgo

/-- A chain that does not come by the changed slot ends where it did. -/
theorem ends_invalidate_of_not_comesBy (hthere : (hs.slot? h).isSome)
    (hne : (hs.latest newer).slot ≠ h.slot) (hl : hs.LeadsTo g l)
    (hend : hs.replacement? l = none) (hby : ¬ hs.ComesBy h g) :
    (hs.invalidate h newer).Ends g := by
  induction hl using Relation.ReflTransGen.head_induction_on with
  | refl =>
    refine ⟨0, ?_⟩
    rw [follow, replacement?_invalidate hthere hne, if_neg fun heq => hby ⟨l, .refl, heq⟩]
    exact hend
  | @head g r hr _ ih =>
    have hnext : ¬ hs.ComesBy h r := by
      rintro ⟨x, hx, hslot⟩
      exact hby ⟨x, .head hr hx, hslot⟩
    refine .of_replacement? (l := r) ?_ (ih hnext)
    rw [replacement?_invalidate hthere hne, if_neg fun heq => hby ⟨g, .refl, heq⟩]
    exact hr

/-- **A call that does not turn back makes no loop.** -/
theorem chainsEnd_invalidate (hc : hs.ChainsEnd) (hturn : ¬ hs.TurnsBack h newer) :
    (hs.invalidate h newer).ChainsEnd := by
  by_cases hne : (hs.latest newer).slot = h.slot
  · rwa [invalidate, if_pos hne]
  by_cases hthere : (hs.slot? h).isSome
  · have hby : ¬ hs.ComesBy h newer := by
      rintro ⟨l, hl, hslot⟩
      -- the slot is not replaced, so the chain of `newer` ends there
      have hend : hs.replacement? l = none := by
        rw [replacement?_congr hslot]
        by_contra hsome
        exact hturn ⟨Option.isSome_iff_ne_none.mpr hsome, l, hl, hslot⟩
      exact hne ((congrArg Handle.slot (latest_eq_of_leadsTo hc hl hend)).trans hslot)
    have hnewer : (hs.invalidate h newer).Ends newer :=
      ends_invalidate_of_not_comesBy hthere hne (leadsTo_follow _ _) (hc newer) hby
    refine hc.of_replacement? fun g => ?_
    rw [replacement?_invalidate hthere hne]
    split_ifs
    · exact .inr ⟨newer, rfl, hnewer⟩
    · exact .inl rfl
  · -- a handle without a slot has nothing to change
    refine hc.of_replacement? fun g => .inl ?_
    rw [invalidate, if_neg hne, replacement?, slot?_modify]
    split_ifs with hslot
    · rw [replacement?, slot?_congr hslot, Option.not_isSome_iff_eq_none.mp hthere]
      rfl
    · rfl

/-- **A call keeps the chains ending exactly when it does not turn back.** -/
theorem chainsEnd_invalidate_iff (hc : hs.ChainsEnd) :
    (hs.invalidate h newer).ChainsEnd ↔ ¬ hs.TurnsBack h newer :=
  ⟨fun hc' hturn => hturn.not_ends hc (chainsEnd_iff.mp hc' newer), chainsEnd_invalidate hc⟩

/-! ## Histories -/

/-- What can be asked of handles from outside. -/
inductive Call where
  | new (name : String) (value : Value)
  | placeholder (name : String)
  | invalidate (h newer : Handle)

namespace Call

def run (hs : Handles) : Call → Handles
  | new name value => (hs.new name value).2
  | placeholder name => (hs.placeholder name).2
  | invalidate h newer => hs.invalidate h newer

def TurnsBack (hs : Handles) : Call → Prop
  | invalidate h newer => hs.TurnsBack h newer
  | _ => False

theorem chainsEnd_run_iff (hc : hs.ChainsEnd) (call : Call) :
    (call.run hs).ChainsEnd ↔ ¬ call.TurnsBack hs := by
  cases call with
  | new name value => exact iff_of_true (chainsEnd_new hc) id
  | placeholder name => exact iff_of_true (chainsEnd_new hc) id
  | invalidate h newer => exact chainsEnd_invalidate_iff hc

end Call

/-- The handles after some calls, from none on. -/
def run (calls : List Call) : Handles := calls.foldl Call.run empty

theorem run_append_singleton (calls : List Call) (call : Call) :
    run (calls ++ [call]) = call.run (run calls) := by
  rw [run, List.foldl_append]
  rfl

/-- **Chains end through a whole history exactly when no call of it turns back.** -/
theorem run_ends_iff (calls : List Call) :
    (∀ before, before <+: calls → ∀ g, (run before).Ends g) ↔
      ∀ before call, before ++ [call] <+: calls → ¬ call.TurnsBack (run before) := by
  simp only [← chainsEnd_iff]
  constructor
  · intro hends before call hp
    rw [← Call.chainsEnd_run_iff (hends before ((List.prefix_append _ _).trans hp)),
      ← run_append_singleton]
    exact hends _ hp
  · intro hturn before
    induction before using List.reverseRecOn with
    | nil => exact fun _ => chainsEnd_empty
    | append_singleton before call ih =>
      intro hp
      rw [run_append_singleton,
        Call.chainsEnd_run_iff (ih ((List.prefix_append _ _).trans hp))]
      exact hturn before call hp

/-- The first is put behind the second, the second behind the third, and then the second, which is
replaced, behind the first. -/
def looping : List Call :=
  [.placeholder "a", .placeholder "b", .placeholder "c",
    .invalidate ⟨"a", some 0⟩ ⟨"b", some 1⟩, .invalidate ⟨"b", some 1⟩ ⟨"c", some 2⟩,
    .invalidate ⟨"b", some 1⟩ ⟨"a", some 0⟩]

/-- **Not every history keeps the chains ending.** -/
theorem not_ends_looping : ¬ (run looping).Ends ⟨"a", some 0⟩ := by
  have hback : (run looping).replacement? ⟨"b", some 1⟩ = some ⟨"a", some 0⟩ := rfl
  have hforth : (run looping).replacement? ⟨"a", some 0⟩ = some ⟨"b", some 1⟩ := rfl
  have hgoes : ∀ n, ((run looping).replacement? ((run looping).follow n ⟨"a", some 0⟩)).isSome ∧
      ((run looping).replacement? ((run looping).follow n ⟨"b", some 1⟩)).isSome := by
    intro n
    induction n with
    | zero => exact ⟨rfl, rfl⟩
    | succ n ih => rw [follow, follow, hforth, hback]; exact ih.symm
  rintro ⟨n, hn⟩
  have hgo := (hgoes n).1
  rw [hn] at hgo
  cases hgo

end Handles

end ResourceTree
