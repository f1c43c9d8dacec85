import ResourceTree.Proofs.Codec.Packed
import ResourceTree.Value.Children

/-!
# Views of children — names, children and counts that fit together

What a value's children are can be asked in several ways: by name, by index, for their names, and
for their number. A dictionary, a packed dictionary and a list give answers that fit together, and
so does a value without children. Octets do not: their names are those of the dictionary that they
are decoded as, while nothing lies under these names.

* `Dict.mem_keys_iff`, `Dict.pairwise_keys`, `Dict.length_keys`: the names of a dictionary;
* `Value.members?`, `Value.IsNaming`: the named children of a value that is no handle;
* `Handles.namedChild?_of_plain`, `childNames_of_plain` and the like: every view in these terms;
* `Handles.Agree`, **`Handles.agree_iff`**: when all views of the children agree;
* `not_agree_octets`: octets with a name that leads to no child.
-/

namespace ResourceTree

/-! ## The names of a dictionary -/

namespace Dict

variable {α : Type*} {d : Dict α} {name : String}

theorem mem_keys_iff : name ∈ d.keys ↔ (d.get? name).isSome := by
  have hlookup : (inKeyOrder d.entries).lookup name = d.get? name := lookup_inKeyOrder
  rw [Option.isSome_iff_ne_none, ← hlookup, ne_eq, lookup_eq_none_iff_names, not_not]
  rfl

theorem pairwise_keys : d.keys.Pairwise (· < ·) := pairwise_inKeyOrder

theorem length_keys (h : d.WellFormed) : d.keys.length = d.size := by
  rw [keys, List.length_map]
  exact (inKeyOrder_perm h.nodup).length_eq

theorem keys_eq_nil_iff (h : d.WellFormed) : d.keys = [] ↔ d.size = 0 := by
  rw [← length_keys h, List.length_eq_zero_iff]

end Dict

/-! ## Children of a value that is no handle -/

namespace Value

/-- The dictionary whose members are the named children of a value. -/
def members? : Value → Option (Dict Value)
  | dict d => some d
  | packed payload => payload.unpack.toOption
  | _ => none

/-- The value has named children, or would have if it could be opened. -/
def IsNaming (v : Value) : Prop := v.kind = .dict ∨ v.kind = .compressed

variable {u : Value} {d : Dict Value}

/-- The named children are those of the dictionary that a value is or is opened as. -/
theorem members?_eq_some_iff : u.members? = some d ↔
    u = .dict d ∨ ∃ payload, u = .packed payload ∧ payload.unpack = .ok d := by
  cases u with
  | packed payload =>
    rw [members?]
    cases hunpack : payload.unpack <;> simp [Except.toOption, hunpack]
  | _ => simp [members?]

theorem isNaming_of_members? (h : u.members? = some d) : u.IsNaming := by
  obtain rfl | ⟨payload, rfl, -⟩ := members?_eq_some_iff.mp h
  · exact .inl rfl
  · exact .inr rfl

theorem wellFormed_of_members? (h : u.members? = some d) (hu : u.WellFormed) : d.WellFormed := by
  obtain rfl | ⟨payload, rfl, hunpack⟩ := members?_eq_some_iff.mp h
  · exact hu.root
  · exact (Packed.wellFormed_of_unpack hunpack).root

end Value

namespace Handles

variable {hs : Handles} {v u : Value} {name : String} {i : Nat}

/-- What a value stands for is itself, or what a handle shows, where that is no handle. -/
theorem plain?_eq_some_iff : hs.plain? v = some u ↔
    u.kind ≠ .resource ∧ (v = u ∨ ∃ h, v = .resource h ∧ hs.value h = u) := by
  cases v with
  | resource h =>
    rw [plain?]
    split
    · next g heq =>
      refine ⟨nofun, ?_⟩
      rintro ⟨hu, rfl | ⟨g', hg', rfl⟩⟩
      · exact absurd rfl hu
      · rw [← Value.resource.inj hg', heq] at hu
        exact absurd rfl hu
    · next hnot =>
      have hkind : (hs.value h).kind ≠ .resource := by
        cases hvalue : hs.value h with
        | resource g => exact absurd hvalue (hnot g)
        | _ => exact Kind.noConfusion
      constructor
      · rintro ⟨⟩
        exact ⟨hkind, .inr ⟨h, rfl, rfl⟩⟩
      · rintro ⟨hu, rfl | ⟨g, hg, rfl⟩⟩
        · exact absurd rfl hu
        · rw [Value.resource.inj hg]
  | _ =>
    constructor
    · rintro ⟨⟩
      exact ⟨Kind.noConfusion, .inl rfl⟩
    · rintro ⟨-, rfl | ⟨g, hg, -⟩⟩
      · rfl
      · cases hg

theorem innermostWithin_of_kind (h : u.kind ≠ .resource) (steps : Nat) :
    hs.innermostWithin steps u = some u := by
  cases u with
  | resource g => exact absurd rfl h
  | _ => cases steps <;> rfl

section Plain

variable (h : hs.plain? v = some u)

include h

theorem innermost?_of_plain : hs.innermost? v = some u := by
  obtain ⟨hkind, rfl | ⟨g, rfl, rfl⟩⟩ := plain?_eq_some_iff.mp h
  · exact innermostWithin_of_kind hkind _
  · exact innermostWithin_of_kind hkind _

theorem hasNamedChildren_of_plain :
    (hs.hasNamedChildren v = some true ↔ u.IsNaming) ∧ (hs.hasNamedChildren v).isSome := by
  rw [hasNamedChildren, innermost?_of_plain h]
  cases u <;> simp [Value.IsNaming, Value.kind]

theorem hasIndexedChildren_of_plain :
    hs.hasIndexedChildren v = some (decide (u.kind = .list)) := by
  rw [hasIndexedChildren, innermost?_of_plain h]
  cases u <;> rfl

theorem namedChild?_of_plain : hs.namedChild? v name = u.members?.bind (·.get? name) := by
  unfold namedChild?
  rw [h]
  cases u <;> rfl

theorem indexedChild?_of_plain :
    hs.indexedChild? v i = u.asList?.bind (·[i]?) := by
  unfold indexedChild?
  rw [h]
  cases u <;> rfl

theorem childCount_of_plain :
    hs.childCount v = (u.asList?.map List.length).getD ((u.members?.map Dict.size).getD 0) := by
  unfold childCount
  rw [h]
  cases u <;> rfl

theorem childNames_of_plain : hs.childNames v = (u.plainDict?.map Dict.keys).getD [] := by
  have hdict : hs.toDict? v = u.plainDict? := by
    have hconvert : (u.convertPlain .dict).bind Value.asDict? = u.plainDict? := by
      have hmap : ∀ x : Option (Dict Value), (x.map Value.dict).bind Value.asDict? = x := by
        rintro (_ | d) <;> rfl
      cases u with
      | binary bytes => exact hmap _
      | packed payload => exact hmap _
      | _ => rfl
    unfold toDict? convert
    rw [h]
    split_ifs with hkind
    · cases v with
      | dict d =>
        obtain rfl := Option.some.inj h
        rfl
      | _ => cases hkind
    · exact hconvert
  rw [childNames, hdict]

end Plain

/-! ## Agreement -/

/-- **All views of the children of a value agree.** -/
structure Agree (hs : Handles) (v : Value) : Prop where
  sorted : (hs.childNames v).Pairwise (· < ·)
  named : ∀ name, name ∈ hs.childNames v ↔ (hs.namedChild? v name).isSome
  hasNamed : ∀ name, (hs.namedChild? v name).isSome → hs.hasNamedChildren v = some true
  hasIndexed : ∀ i, (hs.indexedChild? v i).isSome → hs.hasIndexedChildren v = some true
  indexed : ∀ i, (hs.indexedChild? v i).isSome ↔
    hs.hasIndexedChildren v = some true ∧ i < hs.childCount v
  count : hs.hasIndexedChildren v = some false → hs.childCount v = (hs.childNames v).length

theorem agree_of_childNames (h : hs.plain? v = some u) (hu : u.WellFormed)
    (hnames : hs.childNames v = (u.members?.map Dict.keys).getD []) : hs.Agree v where
  sorted := by
    rw [hnames]
    cases u.members? with
    | none => exact .nil
    | some d => exact Dict.pairwise_keys
  named name := by
    rw [hnames, namedChild?_of_plain h]
    cases u.members? with
    | none => simp
    | some d => exact Dict.mem_keys_iff
  hasNamed name hchild := by
    rw [namedChild?_of_plain h] at hchild
    obtain ⟨child, hchild⟩ := Option.isSome_iff_exists.mp hchild
    obtain ⟨d, hd, -⟩ := Option.bind_eq_some_iff.mp hchild
    exact (hasNamedChildren_of_plain h).1.mpr (Value.isNaming_of_members? hd)
  hasIndexed i hchild := by
    rw [indexedChild?_of_plain h] at hchild
    rw [hasIndexedChildren_of_plain h]
    cases u with
    | list items => rfl
    | _ => cases hchild
  indexed i := by
    rw [indexedChild?_of_plain h, hasIndexedChildren_of_plain h, childCount_of_plain h]
    cases u with
    | list items => simp [Value.asList?, Value.kind]
    | _ => simp [Value.asList?, Value.kind]
  count hnone := by
    rw [hasIndexedChildren_of_plain h, Option.some.injEq, decide_eq_false_iff_not] at hnone
    have hitems : u.asList? = none := by
      cases u with
      | list items => exact absurd rfl hnone
      | _ => rfl
    rw [childCount_of_plain h, hnames, hitems]
    cases hmembers : u.members? with
    | none => rfl
    | some d => exact (Dict.length_keys (Value.wellFormed_of_members? hmembers hu)).symm

/-- **All views of the children of a value agree** exactly when it does not stand for octets that
are decoded as a dictionary with members. -/
theorem agree_iff (h : hs.plain? v = some u) (hu : u.WellFormed) :
    hs.Agree v ↔ ∀ bytes d, u = .binary bytes → Dict.decode bytes = .ok d → d.size = 0 := by
  constructor
  · rintro hagree bytes d rfl hdecode
    have hnames : hs.childNames v = d.keys := by
      rw [childNames_of_plain h, Value.plainDict?, hdecode]
      rfl
    have hnone : hs.hasIndexedChildren v = some false := hasIndexedChildren_of_plain h
    have hcount := hagree.count hnone
    rw [childCount_of_plain h, hnames, Dict.length_keys (Dict.wellFormed_of_decode hdecode).root]
      at hcount
    exact hcount.symm
  · intro hempty
    refine agree_of_childNames h hu ?_
    rw [childNames_of_plain h]
    cases u with
    | binary bytes =>
      rw [Value.plainDict?]
      cases hdecode : Dict.decode bytes with
      | error fault => rfl
      | ok d =>
        exact (Dict.keys_eq_nil_iff (Dict.wellFormed_of_decode hdecode).root).mpr
          (hempty bytes d rfl hdecode)
    | _ => rfl

/-- The octets of a dictionary with the one member `a`. -/
def flagOctets : Bytes := [1, 0, 0, 0, 1, 0, 0, 0, 97, 1, 1]

/-- A handle whose replacement holds these octets in packed form. -/
def packedHandle : Handle × Handles :=
  let (old, hs) := empty.placeholder "h"
  let (newer, hs) := hs.new "h" (.packed ⟨Lz4.compress flagOctets⟩)
  (old, hs.invalidate old newer)

theorem agree_iff_packed : packedHandle.2.childNames (.resource packedHandle.1) = ["a"] ∧
    packedHandle.2.Agree (.resource packedHandle.1) := by
  have hplain : packedHandle.2.plain? (.resource packedHandle.1) =
      some (.packed ⟨Lz4.compress flagOctets⟩) := rfl
  have hwf : (Value.packed ⟨Lz4.compress flagOctets⟩).WellFormed := by rintro d ⟨⟩
  exact ⟨by decide +kernel, (agree_iff hplain hwf).mpr nofun⟩

/-- The octets themselves have a name under which there is no child, and which is not counted. -/
theorem not_agree_octets : empty.childNames (.binary flagOctets) = ["a"] ∧
    empty.namedChild? (.binary flagOctets) "a" = none ∧
    empty.childCount (.binary flagOctets) = 0 ∧ ¬ empty.Agree (.binary flagOctets) := by
  have hnames : empty.childNames (.binary flagOctets) = ["a"] := by decide +kernel
  refine ⟨hnames, rfl, rfl, fun hagree => ?_⟩
  have hchild := (hagree.named "a").mp (by rw [hnames]; exact List.mem_singleton_self _)
  cases hchild

end Handles

end ResourceTree
