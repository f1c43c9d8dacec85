import ResourceTree.Proofs.Codec.Packed

/-!
# Equality of values is an equivalence

Equality of dictionaries looks at the names of the first one only, and at the sizes. Since no name
occurs twice, as many names as the second one has are all of its names, so nothing is missed.

* `Dict.names_perm`: dictionaries of one size, one of which has every name of the other;
* `Dict.rel_get?_iff`, **`Dict.eqUsing_iff_get?`**: equality of dictionaries is equality of what
  they give;
* **`Value.eqUsing_symm`**, `Packed.eqWithin_symm`, `Value.eqUsing_equivalence`;
* `Packed.eqWithin_mono`, `Value.Equal`, `Dict.equal_iff_get?`: equality through however many layers
  of compression;
* **`Value.beq_equivalence`**.
-/

namespace ResourceTree

variable {packedEq : Packed → Packed → Bool} {a b : Dict Value}

/-! ## Dictionaries, name by name -/

namespace Dict

/-- Of two dictionaries of one size, both have the names of the first one if the second one has
them all. -/
theorem names_perm (ha : a.WellFormed) (hsize : a.size = b.size)
    (h : ∀ entry ∈ a.entries, ∃ other, b.get? entry.1 = some other) :
    (names a.entries).Perm (names b.entries) := by
  have hsub : names a.entries ⊆ names b.entries := by
    intro name hname
    obtain ⟨entry, hentry, rfl⟩ := List.mem_map.mp hname
    obtain ⟨other, hother⟩ := h entry hentry
    exact List.mem_map.mpr ⟨(entry.1, other), mem_of_get? hother, rfl⟩
  have hlength : (names b.entries).length ≤ (names a.entries).length := by
    rw [names, names, List.length_map, List.length_map]
    exact hsize.ge
  exact (List.subperm_of_subset ha.nodup hsub).perm_of_length_le hlength

/-- **It is enough to look at the names of one of two dictionaries of one size.** -/
theorem rel_get?_iff (related : Value → Value → Prop) (ha : a.WellFormed) (hb : b.WellFormed) :
    (a.size = b.size ∧ ∀ entry ∈ a.entries,
      ∃ other, b.get? entry.1 = some other ∧ related entry.2 other) ↔
    ∀ name, Option.Rel related (a.get? name) (b.get? name) := by
  constructor
  · rintro ⟨hsize, hmembers⟩ name
    cases hget : a.get? name with
    | some v =>
      obtain ⟨other, hother, heq⟩ := hmembers _ (mem_of_get? hget)
      rw [hother]
      exact .some heq
    | none =>
      have hnames := names_perm ha hsize fun entry hentry =>
        (hmembers entry hentry).imp fun _ => And.left
      have hnone : b.get? name = none := by
        rw [get?, lookup_eq_none_iff_names] at hget ⊢
        rwa [← hnames.mem_iff]
      rw [hnone]
      exact .none
  · intro h
    have hnone : ∀ name, a.get? name = none ↔ b.get? name = none := by
      intro name
      have hrel := h name
      generalize a.get? name = x at hrel ⊢
      generalize b.get? name = y at hrel ⊢
      cases hrel with
      | some => simp only [reduceCtorEq]
      | none => exact Iff.rfl
    have hnames : (names a.entries).Perm (names b.entries) := by
      refine (List.perm_ext_iff_of_nodup ha.nodup hb.nodup).mpr fun name => not_iff_not.mp ?_
      rw [← lookup_eq_none_iff_names, ← lookup_eq_none_iff_names]
      exact hnone name
    refine ⟨?_, fun entry hentry => ?_⟩
    · have hlength := hnames.length_eq
      rwa [names, names, List.length_map, List.length_map] at hlength
    · have hrel := h entry.1
      rw [(get?_eq_some_iff ha).mpr hentry] at hrel
      generalize b.get? entry.1 = y at hrel ⊢
      cases hrel with
      | some heq => exact ⟨_, rfl, heq⟩

/-- **Dictionaries are equal exactly when every name is absent from both or has equal values.** -/
theorem eqUsing_iff_get? (ha : a.WellFormed) (hb : b.WellFormed) :
    Dict.eqUsing packedEq a b = true ↔ ∀ name, Option.Rel
      (fun v w => Value.eqUsing packedEq v w = true) (a.get? name) (b.get? name) :=
  eqUsing_iff.trans (rel_get?_iff (fun v w => Value.eqUsing packedEq v w = true) ha hb)

end Dict

/-! ## Either way round -/

/-- **Equality holds the other way round**, where that of packed dictionaries does. -/
theorem Value.eqUsing_symm (hpacked : ∀ p q, packedEq p q = true → packedEq q p = true)
    {u v : Value} (hu : u.WellFormed) (hv : v.WellFormed) (h : eqUsing packedEq u v = true) :
    eqUsing packedEq v u = true := by
  induction u using Value.induct generalizing v with
  | dict a ih =>
    obtain ⟨b, rfl, hab⟩ := eqUsing_dict_iff.mp h
    rw [eqUsing_dict, Dict.eqUsing_iff_get? hv.root hu.root]
    rw [Dict.eqUsing_iff_get? hu.root hv.root] at hab
    intro name
    have hrel := hab name
    cases hx : a.get? name with
    | none =>
      rw [hx] at hrel
      generalize b.get? name = y at hrel ⊢
      cases hrel with
      | none => exact .none
    | some x =>
      rw [hx] at hrel
      cases hy : b.get? name with
      | none =>
        rw [hy] at hrel
        cases hrel
      | some y =>
        rw [hy, Option.rel_some_some] at hrel
        have hxa := Dict.mem_of_get? hx
        exact .some (ih _ hxa (hu.member hxa) (hv.member (Dict.mem_of_get? hy)) hrel)
  | list items ih =>
    obtain ⟨others, rfl, hitems⟩ := eqUsing_list_iff.mp h
    have hflip : List.Forall₂ (flip fun y x => eqUsing packedEq y x = true) items others :=
      forall₂_imp_mem (fun x hx y hy heq => ih x hx (hu.item hx) (hv.item hy) heq)
        (itemsEq_iff_forall₂.mp hitems)
    exact eqUsing_list_iff.mpr ⟨items, rfl, itemsEq_iff_forall₂.mpr hflip.flip⟩
  | packed payload =>
    cases v <;> simp only [eqUsing, Bool.false_eq_true] at h
    exact hpacked _ _ h
  | _ =>
    cases v <;> simp only [eqUsing, Bool.false_eq_true, beq_iff_eq] at h
    simp only [eqUsing, h, beq_self_eq_true]

theorem Dict.eqUsing_symm (hpacked : ∀ p q, packedEq p q = true → packedEq q p = true)
    (ha : (Value.dict a).WellFormed) (hb : (Value.dict b).WellFormed)
    (h : Dict.eqUsing packedEq a b = true) : Dict.eqUsing packedEq b a = true := by
  rw [← Value.eqUsing_dict] at h ⊢
  exact Value.eqUsing_symm hpacked ha hb h

theorem Packed.eqWithin_symm (layers : Nat) (p q : Packed)
    (h : Packed.eqWithin layers p q = true) : Packed.eqWithin layers q p = true := by
  induction layers generalizing p q with
  | zero =>
    rw [eqWithin, beq_iff_eq] at h ⊢
    exact h.symm
  | succ layers ih =>
    refine eqWithin_succ.mpr ((eqWithin_succ.mp h).imp Eq.symm ?_)
    rintro ⟨x, y, hx, hy, hxy⟩
    exact ⟨y, x, hy, hx,
      Dict.eqUsing_symm ih (wellFormed_of_unpack hx) (wellFormed_of_unpack hy) hxy⟩

/-- Equality is an equivalence, however many layers of compression it looks through. -/
theorem Value.eqUsing_equivalence (layers : Nat) :
    Equivalence fun u v : {v : Value // v.WellFormed} =>
      Value.eqUsing (Packed.eqWithin layers) u.val v.val = true where
  refl u := Value.eqUsing_refl (Packed.eqWithin_refl layers) u.property
  symm h := Value.eqUsing_symm (Packed.eqWithin_symm layers) (Subtype.property _)
    (Subtype.property _) h
  trans huv hvw := Value.eqUsing_trans (Packed.eqWithin_trans layers) huv hvw

/-! ## Through all layers of compression -/

theorem Value.eqUsing_mono {packedEq' : Packed → Packed → Bool}
    (hpacked : ∀ p q, packedEq p q = true → packedEq' p q = true) {u v : Value}
    (h : eqUsing packedEq u v = true) : eqUsing packedEq' u v = true := by
  induction u using Value.induct generalizing v with
  | dict a ih =>
    obtain ⟨b, rfl, hab⟩ := eqUsing_dict_iff.mp h
    rw [eqUsing_dict]
    refine Dict.eqUsing_iff.mpr ((Dict.eqUsing_iff.mp hab).imp_right fun hmembers => ?_)
    intro entry hentry
    obtain ⟨other, hother, heq⟩ := hmembers entry hentry
    exact ⟨other, hother, ih entry hentry heq⟩
  | list items ih =>
    obtain ⟨others, rfl, hitems⟩ := eqUsing_list_iff.mp h
    have hmore := forall₂_imp_mem (fun x hx y _ heq => ih x hx heq)
      (itemsEq_iff_forall₂.mp hitems)
    exact eqUsing_list_iff.mpr ⟨others, rfl, itemsEq_iff_forall₂.mpr hmore⟩
  | packed payload =>
    cases v <;> simp only [eqUsing, Bool.false_eq_true] at h
    exact hpacked _ _ h
  | _ =>
    cases v <;> simp only [eqUsing, Bool.false_eq_true, beq_iff_eq] at h
    simp only [eqUsing, h, beq_self_eq_true]

/-- **More layers find no less equal.** -/
theorem Packed.eqWithin_mono {fewer layers : Nat} (hle : fewer ≤ layers) (p q : Packed)
    (h : Packed.eqWithin fewer p q = true) : Packed.eqWithin layers p q = true := by
  induction layers generalizing fewer p q with
  | zero => rwa [Nat.le_zero.mp hle] at h
  | succ layers ih =>
    cases fewer with
    | zero =>
      rw [eqWithin, beq_iff_eq] at h
      exact h ▸ eqWithin_refl _ p
    | succ fewer =>
      refine eqWithin_succ.mpr ((eqWithin_succ.mp h).imp_right ?_)
      rintro ⟨x, y, hx, hy, hxy⟩
      refine ⟨x, y, hx, hy, ?_⟩
      rw [← Value.eqUsing_dict] at hxy ⊢
      exact Value.eqUsing_mono (ih (Nat.le_of_succ_le_succ hle)) hxy

/-- Equality through however many layers of compression there are: what a comparison without a bound
on them finds where it comes to an end. -/
def Value.Equal (u v : Value) : Prop :=
  ∃ layers, Value.eqUsing (Packed.eqWithin layers) u v = true

/-- The same of dictionaries. -/
def Dict.Equal (a b : Dict Value) : Prop :=
  ∃ layers, Dict.eqUsing (Packed.eqWithin layers) a b = true

theorem Value.eqUsing_of_le {fewer layers : Nat} (hle : fewer ≤ layers) {u v : Value}
    (h : eqUsing (Packed.eqWithin fewer) u v = true) :
    eqUsing (Packed.eqWithin layers) u v = true := eqUsing_mono (Packed.eqWithin_mono hle) h

theorem Value.equal_equivalence :
    Equivalence fun u v : {v : Value // v.WellFormed} => Equal u.val v.val where
  refl u := ⟨0, (eqUsing_equivalence 0).refl u⟩
  symm := fun ⟨layers, h⟩ => ⟨layers, (eqUsing_equivalence layers).symm h⟩
  trans := fun ⟨layers, h⟩ ⟨layers', h'⟩ => ⟨max layers layers',
    (eqUsing_equivalence _).trans (eqUsing_of_le (le_max_left layers layers') h)
      (eqUsing_of_le (le_max_right layers layers') h')⟩

theorem Dict.exists_layers {entries : List (String × Value)}
    (h : ∀ entry ∈ entries, ∃ other, b.get? entry.1 = some other ∧ Value.Equal entry.2 other) :
    ∃ layers, ∀ entry ∈ entries, ∃ other, b.get? entry.1 = some other ∧
      Value.eqUsing (Packed.eqWithin layers) entry.2 other = true := by
  induction entries with
  | nil => exact ⟨0, nofun⟩
  | cons entry rest ih =>
    obtain ⟨⟨other, hother, layers, heq⟩, hrest⟩ := List.forall_mem_cons.mp h
    obtain ⟨layers', hall⟩ := ih hrest
    refine ⟨max layers layers', List.forall_mem_cons.mpr ⟨⟨other, hother, ?_⟩, ?_⟩⟩
    · exact Value.eqUsing_of_le (le_max_left layers layers') heq
    · intro found hfound
      obtain ⟨other', hother', heq'⟩ := hall found hfound
      exact ⟨other', hother', Value.eqUsing_of_le (le_max_right layers layers') heq'⟩

theorem Dict.equal_iff_get? (ha : a.WellFormed) (hb : b.WellFormed) :
    a.Equal b ↔ ∀ name, Option.Rel Value.Equal (a.get? name) (b.get? name) := by
  rw [← rel_get?_iff Value.Equal ha hb]
  constructor
  · rintro ⟨layers, h⟩
    refine (eqUsing_iff.mp h).imp_right fun hmembers entry hentry => ?_
    obtain ⟨other, hother, heq⟩ := hmembers entry hentry
    exact ⟨other, hother, layers, heq⟩
  · rintro ⟨hsize, hmembers⟩
    obtain ⟨layers, hall⟩ := exists_layers hmembers
    exact ⟨layers, eqUsing_iff.mpr ⟨hsize, hall⟩⟩

/-- **Equality of values is an equivalence**, and two dictionaries are equal exactly when every
name is absent from both or has equal values in both. The same holds of equality that looks through
all layers of compression. -/
theorem Value.beq_equivalence :
    (Equivalence fun u v : {v : Value // v.WellFormed} => (u.val == v.val) = true) ∧
    (∀ a b : {d : Dict Value // d.WellFormed}, (a.val == b.val) = true ↔
      ∀ name, Option.Rel (fun v w => (v == w) = true) (a.val.get? name) (b.val.get? name)) ∧
    (Equivalence fun u v : {v : Value // v.WellFormed} => Equal u.val v.val) ∧
    ∀ a b : {d : Dict Value // d.WellFormed}, a.val.Equal b.val ↔
      ∀ name, Option.Rel Equal (a.val.get? name) (b.val.get? name) :=
  ⟨eqUsing_equivalence compressionLayers,
    fun a b => Dict.eqUsing_iff_get? a.property b.property,
    equal_equivalence, fun a b => Dict.equal_iff_get? a.property b.property⟩

end ResourceTree
