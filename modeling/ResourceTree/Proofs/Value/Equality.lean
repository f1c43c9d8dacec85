import Mathlib.Data.List.Forall2
import ResourceTree.Proofs.Value.Shape
import ResourceTree.Value.Equality

/-!
# Equality of values, member by member

* `eqUsing_dict`, `membersEq_iff`, `itemsEq_iff_forall₂`: equality of what holds other values;
* **`Dict.eqUsing_iff`**, `Dict.eqUsing_of_perm`: when two dictionaries are equal;
* `Packed.beq_refl`, **`Value.eqUsing_refl`**, `Dict.beq_refl`: a well-formed value equals itself;
* **`Value.eqUsing_trans`**, `Packed.eqWithin_trans`, `Dict.beq_trans`: equality passes on.
-/

namespace ResourceTree

theorem Packed.eqWithin_refl (layers : Nat) (p : Packed) : Packed.eqWithin layers p p = true := by
  cases layers <;> simp [eqWithin]

theorem Packed.beq_refl (p : Packed) : Packed.beq p p = true := eqWithin_refl _ p

namespace Value

variable {packedEq : Packed → Packed → Bool}

theorem eqUsing_dict (a b : Dict Value) :
    eqUsing packedEq (.dict a) (.dict b) = Dict.eqUsing packedEq a b := by
  cases a
  rw [eqUsing]
  rfl

theorem membersEq_iff {entries : List (String × Value)} {d : Dict Value} :
    membersEq packedEq entries d = true ↔ ∀ entry ∈ entries,
      ∃ other, d.get? entry.1 = some other ∧ eqUsing packedEq entry.2 other = true := by
  induction entries with
  | nil => simp [membersEq]
  | cons entry rest ih =>
    obtain ⟨name, v⟩ := entry
    rw [membersEq, Bool.and_eq_true, ih, List.forall_mem_cons]
    cases d.get? name <;> simp

theorem itemsEq_iff_forall₂ {us vs : List Value} : itemsEq packedEq us vs = true ↔
    List.Forall₂ (fun u v => eqUsing packedEq u v = true) us vs := by
  induction us generalizing vs with
  | nil => cases vs <;> simp [itemsEq]
  | cons u us ih => cases vs <;> simp [itemsEq, ih]

theorem itemsEq_map_iff {items : List Value} {f : Value → Value} :
    itemsEq packedEq (items.map f) items = true ↔
      ∀ item ∈ items, eqUsing packedEq (f item) item = true := by
  rw [itemsEq_iff_forall₂, List.forall₂_map_left_iff, List.forall₂_same]

theorem forall₂_imp_mem {us vs : List Value} {related related' : Value → Value → Prop}
    (h : ∀ u ∈ us, ∀ v ∈ vs, related u v → related' u v) (hrelated : List.Forall₂ related us vs) :
    List.Forall₂ related' us vs := by
  rw [List.forall₂_iff_zip] at hrelated ⊢
  refine ⟨hrelated.1, fun {u v} hpair => ?_⟩
  obtain ⟨hu, hv⟩ := List.of_mem_zip hpair
  exact h u hu v hv (hrelated.2 hpair)

end Value

section

variable {packedEq : Packed → Packed → Bool}

/-- **Two dictionaries are equal** when they have as many entries and the second one gives every
name of the first an equal value. -/
theorem Dict.eqUsing_iff {a b : Dict Value} : Dict.eqUsing packedEq a b = true ↔ a.size = b.size ∧
    ∀ entry ∈ a.entries,
      ∃ other, b.get? entry.1 = some other ∧ Value.eqUsing packedEq entry.2 other = true := by
  rw [Dict.eqUsing, Bool.and_eq_true, Value.membersEq_iff, beq_iff_eq]

/-- A dictionary with the same entries up to order and up to equality of the values is equal. -/
theorem Dict.eqUsing_of_perm {a d : Dict Value} (h : d.WellFormed) {f : Value → Value}
    (hp : a.entries.Perm (d.entries.map (Prod.map id f)))
    (hf : ∀ entry ∈ d.entries, Value.eqUsing packedEq (f entry.2) entry.2 = true) :
    Dict.eqUsing packedEq a d = true := by
  refine eqUsing_iff.mpr ⟨by simpa [size] using hp.length_eq, fun entry hentry => ?_⟩
  obtain ⟨found, hfound, rfl⟩ := List.mem_map.mp (hp.mem_iff.mp hentry)
  exact ⟨found.2, (get?_eq_some_iff h).mpr hfound, hf found hfound⟩

/-- **A well-formed value equals itself**, where a packed dictionary does. -/
theorem Value.eqUsing_refl (hpacked : ∀ p, packedEq p p = true) {v : Value} (h : v.WellFormed) :
    Value.eqUsing packedEq v v = true := by
  induction v using Value.induct with
  | dict d ih =>
    rw [eqUsing_dict]
    refine Dict.eqUsing_of_perm (f := id) h.root (by simp) fun entry hentry => ?_
    exact ih entry hentry (h.member hentry)
  | list items ih =>
    exact itemsEq_iff_forall₂.mpr (List.forall₂_same.mpr fun item hi => ih item hi (h.item hi))
  | packed payload => exact hpacked payload
  | _ => simp [eqUsing]

end

/-! ## Equality passes on -/

theorem Dict.mem_of_get? {d : Dict Value} {name : String} {v : Value} (h : d.get? name = some v) :
    (name, v) ∈ d.entries := by
  obtain ⟨before, after, hentries, -⟩ := List.lookup_eq_some_iff.mp h
  rw [hentries]
  exact List.mem_append_right _ List.mem_cons_self

section

variable {packedEq : Packed → Packed → Bool}

theorem Value.eqUsing_dict_iff {a : Dict Value} {v : Value} :
    eqUsing packedEq (.dict a) v = true ↔ ∃ b, v = .dict b ∧ Dict.eqUsing packedEq a b = true := by
  refine ⟨fun h => ?_, ?_⟩
  · obtain ⟨storage, entries⟩ := a
    cases v with
    | dict b => exact ⟨b, rfl, eqUsing_dict ⟨storage, entries⟩ b ▸ h⟩
    | _ => simp [eqUsing] at h
  · rintro ⟨b, rfl, h⟩
    rwa [eqUsing_dict]

theorem Value.eqUsing_list_iff {items : List Value} {v : Value} :
    eqUsing packedEq (.list items) v = true ↔
      ∃ others, v = .list others ∧ itemsEq packedEq items others = true := by
  cases v <;> simp [eqUsing]

theorem Value.itemsEq_trans {us vs ws : List Value}
    (h : ∀ u ∈ us, ∀ v w, eqUsing packedEq u v = true → eqUsing packedEq v w = true →
      eqUsing packedEq u w = true)
    (huv : itemsEq packedEq us vs = true) (hvw : itemsEq packedEq vs ws = true) :
    itemsEq packedEq us ws = true := by
  induction us generalizing vs ws with
  | nil =>
    cases vs with
    | nil => exact hvw
    | cons v vs => simp [itemsEq] at huv
  | cons u us ih =>
    cases vs with
    | nil => simp [itemsEq] at huv
    | cons v vs =>
      cases ws with
      | nil => simp [itemsEq] at hvw
      | cons w ws =>
        rw [itemsEq, Bool.and_eq_true] at huv hvw ⊢
        obtain ⟨hu, hus⟩ := List.forall_mem_cons.mp h
        exact ⟨hu v w huv.1 hvw.1, ih hus huv.2 hvw.2⟩

/-- **Equality passes on**, where that of packed dictionaries does. -/
theorem Value.eqUsing_trans
    (hpacked : ∀ p q r, packedEq p q = true → packedEq q r = true → packedEq p r = true)
    {u v w : Value} (huv : Value.eqUsing packedEq u v = true)
    (hvw : Value.eqUsing packedEq v w = true) : Value.eqUsing packedEq u w = true := by
  induction u using Value.induct generalizing v w with
  | dict a ih =>
    obtain ⟨b, rfl, hab⟩ := eqUsing_dict_iff.mp huv
    obtain ⟨c, rfl, hbc⟩ := eqUsing_dict_iff.mp hvw
    obtain ⟨hsize, hmembers⟩ := Dict.eqUsing_iff.mp hab
    obtain ⟨hsize', hmembers'⟩ := Dict.eqUsing_iff.mp hbc
    refine eqUsing_dict_iff.mpr
      ⟨c, rfl, Dict.eqUsing_iff.mpr ⟨hsize.trans hsize', fun entry he => ?_⟩⟩
    obtain ⟨other, hother, heq⟩ := hmembers entry he
    obtain ⟨third, hthird, heq'⟩ := hmembers' _ (Dict.mem_of_get? hother)
    exact ⟨third, hthird, ih entry he heq heq'⟩
  | list items ih =>
    obtain ⟨others, rfl, hitems⟩ := eqUsing_list_iff.mp huv
    obtain ⟨third, rfl, hothers⟩ := eqUsing_list_iff.mp hvw
    exact eqUsing_list_iff.mpr
      ⟨third, rfl, itemsEq_trans (fun item hi v w => ih item hi) hitems hothers⟩
  | packed payload =>
    cases v <;> simp only [eqUsing, Bool.false_eq_true] at huv
    cases w <;> simp only [eqUsing, Bool.false_eq_true] at hvw
    exact hpacked _ _ _ huv hvw
  | _ =>
    cases v <;> simp only [eqUsing, Bool.false_eq_true, beq_iff_eq] at huv
    cases w <;> simp only [eqUsing, Bool.false_eq_true, beq_iff_eq] at hvw
    simp only [eqUsing, huv, hvw, beq_self_eq_true]

theorem Dict.eqUsing_trans
    (hpacked : ∀ p q r, packedEq p q = true → packedEq q r = true → packedEq p r = true)
    {a b c : Dict Value} (hab : Dict.eqUsing packedEq a b = true)
    (hbc : Dict.eqUsing packedEq b c = true) : Dict.eqUsing packedEq a c = true := by
  rw [← Value.eqUsing_dict] at hab hbc ⊢
  exact Value.eqUsing_trans hpacked hab hbc

end

theorem Packed.eqWithin_succ {layers : Nat} {p q : Packed} :
    Packed.eqWithin (layers + 1) p q = true ↔ p = q ∨ ∃ x y, p.unpack = .ok x ∧
      q.unpack = .ok y ∧ Dict.eqUsing (Packed.eqWithin layers) x y = true := by
  rw [eqWithin, Bool.or_eq_true, beq_iff_eq]
  cases p.unpack <;> cases q.unpack <;> simp

theorem Packed.eqWithin_trans (layers : Nat) (p q r : Packed)
    (hpq : Packed.eqWithin layers p q = true) (hqr : Packed.eqWithin layers q r = true) :
    Packed.eqWithin layers p r = true := by
  induction layers generalizing p q r with
  | zero =>
    rw [eqWithin, beq_iff_eq] at hpq hqr ⊢
    exact hpq.trans hqr
  | succ layers ih =>
    obtain rfl | ⟨x, y, hx, hy, hxy⟩ := eqWithin_succ.mp hpq
    · exact hqr
    obtain rfl | ⟨y', z, hy', hz, hyz⟩ := eqWithin_succ.mp hqr
    · exact hpq
    obtain rfl : y = y' := Except.ok.inj (hy.symm.trans hy')
    exact eqWithin_succ.mpr (.inr ⟨x, z, hx, hz, Dict.eqUsing_trans ih hxy hyz⟩)

/-- **A well-formed dictionary equals itself.** -/
theorem Dict.beq_refl {d : Dict Value} (h : (Value.dict d).WellFormed) : (d == d) = true := by
  have heq := Value.eqUsing_refl Packed.beq_refl h
  rwa [Value.eqUsing_dict] at heq

theorem Dict.beq_trans {a b c : Dict Value} (hab : (a == b) = true) (hbc : (b == c) = true) :
    (a == c) = true := Dict.eqUsing_trans (Packed.eqWithin_trans _) hab hbc

end ResourceTree
