import ResourceTree.Compile.Expand
import ResourceTree.Proofs.Store.Chain

/-!
# Views — what can be seen of handles

Whoever reads through a handle sees its value and nothing else. Paths, named values and templates
come out the same over any handles that show the same values.

* `toDict?_congr`, `findPath_congr`, `lookup_congr`, `layer_congr`, `findTemplate_congr`;
* `Handles.ChainsEnd`: nothing replaces the latest handle of a chain;
* **`value_new_null`**, `chainsEnd_new`: a new slot that holds null is not seen.
-/

namespace ResourceTree

namespace Handles

variable {hs hs' : Handles} {v : Value}

section Congruence

variable (h : hs.value = hs'.value)

include h

theorem plain?_congr : hs.plain? v = hs'.plain? v := by
  unfold plain?
  rw [h]

theorem toDict?_congr : hs.toDict? = hs'.toDict? := by
  funext v
  unfold toDict? convert
  rw [plain?_congr h]

theorem child?_congr : hs.child? = hs'.child? := by
  funext v step
  cases step <;> simp only [child?, namedChild?, indexedChild?, plain?_congr h]

theorem findPath_congr (d : Dict Value) (path : String) :
    hs.findPath d path = hs'.findPath d path := by
  unfold findPath descend
  rw [child?_congr h]

end Congruence

/-! ## New slots -/

/-- Nothing replaces the handle that a chain is followed to. -/
def ChainsEnd (hs : Handles) : Prop := ∀ h, hs.replacement? (hs.latest h) = none

theorem chainsEnd_empty : empty.ChainsEnd := fun h => by
  have hnone : empty.slot? (empty.latest h) = none := by
    cases hslot : (empty.latest h).slot with
    | none => simp only [slot?, hslot]
    | some i => exact slot?_eq_none_of_size hslot (Nat.zero_le i)
  rw [replacement?, hnone, Option.bind_none]

theorem Forward.chainsEnd (hf : hs.Forward) : hs.ChainsEnd := hf.replacement?_latest

section New

variable {name : String} {g : Handle}

theorem replacement?_new : (hs.new name v).2.replacement? g = hs.replacement? g := by
  rw [replacement?, slot?_new]
  split_ifs with hslot
  · rw [replacement?, slot?_eq_none_of_size hslot (Nat.le_refl _)]
    rfl
  · rfl

theorem follow_new (n : Nat) : (hs.new name v).2.follow n g = hs.follow n g := by
  induction n generalizing g with
  | zero => rfl
  | succ n ih =>
    rw [follow, follow, replacement?_new]
    cases hs.replacement? g with
    | none => rfl
    | some next => exact ih

/-- One step more from where a chain has ended leads nowhere else. -/
theorem follow_succ (n : Nat) (hend : hs.replacement? (hs.follow n g) = none) :
    hs.follow (n + 1) g = hs.follow n g := by
  induction n generalizing g with
  | zero =>
    have hend : hs.replacement? g = none := hend
    rw [follow_of_replacement?_eq_none hend, follow_of_replacement?_eq_none hend]
  | succ n ih =>
    rw [follow, follow]
    rw [follow] at hend
    cases hnext : hs.replacement? g with
    | none => rfl
    | some next =>
      rw [hnext] at hend
      exact ih hend

theorem latest_new (hc : hs.ChainsEnd) : (hs.new name v).2.latest g = hs.latest g := by
  rw [latest, size_new, follow_new, follow_succ _ (hc g)]
  rfl

theorem chainsEnd_new (hc : hs.ChainsEnd) : (hs.new name v).2.ChainsEnd := fun g => by
  rw [latest_new hc, replacement?_new]
  exact hc g

/-- **A new slot that holds null is not seen.** -/
theorem value_new_null (hc : hs.ChainsEnd) : (hs.new name .null).2.value = hs.value := by
  funext g
  rw [value, latest_new hc, value, ownValue, slot?_new]
  split_ifs with hslot
  · rw [ownValue, slot?_eq_none_of_size hslot (Nat.le_refl _)]
    rfl
  · rfl

end New

end Handles

/-! ## Named values and templates -/

variable {hs hs' : Handles} (h : hs.value = hs'.value)

include h

theorem Place.lookup_congr (place : Place) (path : String) :
    place.lookup hs path = place.lookup hs' path := by
  unfold lookup
  simp only [Handles.findPath_congr h]

namespace Compile

theorem ownValues_congr (d : Dict Value) : ownValues hs d = ownValues hs' d := by
  unfold ownValues
  rw [Handles.toDict?_congr h]

theorem layer_congr (base overrides : Dict Value) :
    layer hs base overrides = layer hs' base overrides := by
  unfold layer
  rw [ownValues_congr h, ownValues_congr h]

theorem findTemplate_congr (place : Place) (d : Dict Value) (name : String) :
    findTemplate hs place d name = findTemplate hs' place d name := by
  unfold findTemplate
  simp only [ownValues_congr h, Place.lookup_congr h, Handles.findPath_congr h,
    Handles.toDict?_congr h]

end Compile

end ResourceTree
