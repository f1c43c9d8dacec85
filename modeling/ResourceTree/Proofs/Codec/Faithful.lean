import ResourceTree.Proofs.Value.Equivalence

/-!
# Faithful octets — what the encoded form says about a dictionary

A spelling determines the octets and is determined by them, and equal dictionaries are spelled
alike however their entries are kept. So encoded forms can be compared in place of dictionaries,
but for packed dictionaries: two of these may be equal without the same octets.

* `Value.Unpacked`: nothing packed inside;
* `Dict.spelling_eq`, **`Value.spelling_eq_of_eqUsing`**: what is equal is spelled alike;
* `Dict.eqUsing_of_spelling_eq`: what is spelled alike is equal;
* `Dict.encode_dictValue_spelling`: what is read is written as it was;
* **`Dict.encode_faithful`**.
-/

namespace ResourceTree

variable {packedEq : Packed → Packed → Bool} {d e : Dict Value} {b c : Bytes}

/-- There is no packed dictionary inside. -/
def Value.Unpacked (v : Value) : Prop := ∀ payload, ¬ Within (.packed payload) v

theorem Value.unpacked_dict : Unpacked (.dict d) ↔ ∀ entry ∈ d.entries, entry.2.Unpacked := by
  refine ⟨fun h entry hentry payload hw => h payload (.member hentry hw), ?_⟩
  rintro h payload (_ | ⟨hentry, hw⟩)
  exact h _ hentry payload hw

theorem Value.unpacked_list {items : List Value} :
    Unpacked (.list items) ↔ ∀ item ∈ items, item.Unpacked := by
  refine ⟨fun h item hitem payload hw => h payload (.item hitem hw), ?_⟩
  rintro h payload (_ | _ | ⟨hitem, hw⟩)
  exact h _ hitem payload hw

/-! ## Spelled alike -/

/-- Dictionaries of one size are spelled alike when the entries of the first one are spelled like
those of the second one with the same names. -/
theorem Dict.spelling_eq (hd : d.WellFormed) (hsize : d.size = e.size)
    (h : ∀ entry ∈ d.entries, ∃ other,
      e.get? entry.1 = some other ∧ entry.2.spelling = other.spelling) :
    d.spelling = e.spelling := by
  have hnodup : (names (d.entries.map (Prod.map id Value.spelling))).Nodup := by
    rw [names_map]
    exact hd.nodup
  have hsub : d.entries.map (Prod.map id Value.spelling) ⊆
      e.entries.map (Prod.map id Value.spelling) := by
    intro member hmember
    obtain ⟨entry, hentry, rfl⟩ := List.mem_map.mp hmember
    obtain ⟨other, hother, heq⟩ := h entry hentry
    exact List.mem_map.mpr ⟨(entry.1, other), mem_of_get? hother, Prod.ext rfl heq.symm⟩
  have hlength : (e.entries.map (Prod.map id Value.spelling)).length ≤
      (d.entries.map (Prod.map id Value.spelling)).length := by
    rw [List.length_map, List.length_map]
    exact hsize.ge
  rw [Dict.spelling, Dict.spelling, ← inKeyOrder_map, ← inKeyOrder_map]
  exact inKeyOrder_eq_of_perm hnodup
    ((List.subperm_of_subset hnodup.of_map hsub).perm_of_length_le hlength)

/-- **Equal values are spelled alike**, where equal packed dictionaries are the same. -/
theorem Value.spelling_eq_of_eqUsing {u v : Value} (hu : u.WellFormed)
    (hpacked : ∀ p, Within (.packed p) u → ∀ q, packedEq p q = true → p = q)
    (h : eqUsing packedEq u v = true) : u.spelling = v.spelling := by
  induction u using Value.induct generalizing v with
  | dict a ih =>
    obtain ⟨other, rfl, hother⟩ := eqUsing_dict_iff.mp h
    obtain ⟨hsize, hmembers⟩ := Dict.eqUsing_iff.mp hother
    rw [spelling_dict, spelling_dict]
    refine congrArg _ (Dict.spelling_eq hu.root hsize fun entry hentry => ?_)
    obtain ⟨found, hfound, heq⟩ := hmembers entry hentry
    refine ⟨found, hfound, ih entry hentry (hu.member hentry) ?_ heq⟩
    exact fun p hin => hpacked p (.member hentry hin)
  | list items ih =>
    obtain ⟨others, rfl, hitems⟩ := eqUsing_list_iff.mp h
    have halike : List.Forall₂ (fun x y => x.spelling = y.spelling) items others := by
      refine forall₂_imp_mem (fun x hx y _ heq => ?_) (itemsEq_iff_forall₂.mp hitems)
      exact ih x hx (hu.item hx) (fun p hin => hpacked p (.item hx hin)) heq
    rw [spelling_list, spelling_list]
    refine congrArg _ (List.forall₂_eq_eq_eq ▸ ?_)
    exact List.forall₂_map_left_iff.mpr (List.forall₂_map_right_iff.mpr halike)
  | packed payload =>
    cases v <;> simp only [eqUsing, Bool.false_eq_true] at h
    rw [hpacked payload .self _ h]
  | _ =>
    cases v <;> simp only [eqUsing, Bool.false_eq_true, beq_iff_eq] at h
    simp only [spelling, h]

theorem Dict.spelling_eq_of_eqUsing (hd : (Value.dict d).WellFormed)
    (hpacked : ∀ p, Value.Within (.packed p) (.dict d) → ∀ q, packedEq p q = true → p = q)
    (h : Dict.eqUsing packedEq d e = true) : d.spelling = e.spelling := by
  rw [← Value.eqUsing_dict] at h
  have halike := Value.spelling_eq_of_eqUsing hd hpacked h
  rwa [Value.spelling_dict, Value.spelling_dict, Codec.Spelling.dict.injEq] at halike

theorem Dict.eqUsing_of_spelling_eq (hrefl : ∀ p, packedEq p p = true)
    (hsymm : ∀ p q, packedEq p q = true → packedEq q p = true)
    (htrans : ∀ p q r, packedEq p q = true → packedEq q r = true → packedEq p r = true)
    (hd : (Value.dict d).WellFormed) (he : (Value.dict e).WellFormed)
    (hld : (Value.dict d).Lifeless) (hle : (Value.dict e).Lifeless)
    (h : d.spelling = e.spelling) : Dict.eqUsing packedEq d e = true := by
  have hread : Dict.eqUsing packedEq (Codec.dictValue d.spelling) d = true :=
    Codec.eqUsing_dictValue_spelling hrefl hd hld
  have hback : Dict.eqUsing packedEq d (Codec.dictValue d.spelling) = true := by
    rw [← Value.eqUsing_dict] at hread ⊢
    exact Value.eqUsing_symm hsymm (Codec.wellFormed_value (.dict d.spelling)) hd hread
  refine Dict.eqUsing_trans htrans hback ?_
  rw [h]
  exact Codec.eqUsing_dictValue_spelling hrefl he hle

/-! ## Encoded forms -/

namespace Dict

theorem encode_eq_iff_spelling (hd : (Value.dict d).WellFormed) (he : (Value.dict e).WellFormed)
    (hb : d.encode = .ok b) (hc : e.encode = .ok c) : b = c ↔ d.spelling = e.spelling := by
  obtain ⟨⟨-, hfits⟩, rfl⟩ := (encode_eq_ok_iff hd).mp hb
  obtain ⟨⟨-, hfits'⟩, rfl⟩ := (encode_eq_ok_iff he).mp hc
  rw [Value.spelling_dict] at hfits hfits'
  exact ⟨Codec.Spelling.dictBytes_inj hfits hfits', congrArg Codec.dictBytes⟩

theorem encode_dictValue_spelling (hd : (Value.dict d).WellFormed) (hb : d.encode = .ok b) :
    (Codec.dictValue d.spelling).encode = .ok b := by
  obtain ⟨⟨hld, hfits⟩, rfl⟩ := (encode_eq_ok_iff hd).mp hb
  have hread : Dict.eqUsing (· == ·) (Codec.dictValue d.spelling) d = true :=
    Codec.eqUsing_dictValue_spelling beq_self_eq_true hd hld
  have hspelling : (Codec.dictValue d.spelling).spelling = d.spelling :=
    spelling_eq_of_eqUsing (Codec.wellFormed_value (.dict d.spelling))
      (fun p _ q => eq_of_beq) hread
  rw [Value.spelling_dict] at hfits
  have hencode := encode_dictValue (hspelling.symm ▸ hfits)
  rwa [hspelling] at hencode

/-- **Encoded forms are faithful.** They are the same exactly when the dictionaries are equal with
their packed dictionaries compared octet by octet. So the same octets mean equal dictionaries, and
equal dictionaries without packed ones inside have the same octets. -/
theorem encode_faithful (hd : (Value.dict d).WellFormed) (he : (Value.dict e).WellFormed)
    (hb : d.encode = .ok b) (hc : e.encode = .ok c) :
    (b = c ↔ Dict.eqUsing (· == ·) d e = true) ∧ (b = c → (d == e) = true) ∧
      ((Value.dict d).Unpacked → (Value.dict e).Unpacked → (d == e) = true → b = c) := by
  have hld : (Value.dict d).Lifeless := ((encode_eq_ok_iff hd).mp hb).1.1
  have hle : (Value.dict e).Lifeless := ((encode_eq_ok_iff he).mp hc).1.1
  rw [encode_eq_iff_spelling hd he hb hc]
  refine ⟨⟨?_, spelling_eq_of_eqUsing hd fun p _ q => eq_of_beq⟩, ?_, fun hunpacked _ => ?_⟩
  · exact eqUsing_of_spelling_eq beq_self_eq_true (fun p q => BEq.symm)
      (fun p q r => BEq.trans) hd he hld hle
  · exact eqUsing_of_spelling_eq Packed.beq_refl (Packed.eqWithin_symm _)
      (Packed.eqWithin_trans _) hd he hld hle
  · exact spelling_eq_of_eqUsing hd fun p hin => absurd hin (hunpacked p)

/-- Entries in the order in which they were set, a flat dictionary among them. -/
def assorted : Dict Value := Codec.dictValue
  [("b", .list [.null, .bool 1]), ("a", .dict [("y", .number 0), ("x", .string "t")])]

/-- The same entries, indexed. -/
def assortedIndex : Dict Value := ⟨.indexed, inKeyOrder assorted.entries⟩

theorem encode_faithful_assorted : ∃ b c, assorted.encode = .ok b ∧ assortedIndex.encode = .ok c ∧
    assorted.entries.map Prod.fst ≠ assortedIndex.entries.map Prod.fst ∧ b = c := by
  have hd : (Value.dict assorted).WellFormed := Codec.wellFormed_value (.dict _)
  have he : (Value.dict assortedIndex).WellFormed :=
    Value.wellFormed_dict (wellFormed_of_pairwise pairwise_inKeyOrder)
      (fun entry hentry => hd.nullFree entry (inKeyOrder_subset hentry))
      fun entry hentry => hd.member (inKeyOrder_subset hentry)
  have hunpacked : (Value.dict assorted).Unpacked := by
    have hentries : assorted.entries = [("b", .list [.null, .bool true]),
        ("a", .dict ⟨.flat, [("y", .number ⟨0⟩), ("x", .string "t")]⟩)] := rfl
    simp only [Value.unpacked_dict, hentries, Value.unpacked_list, List.forall_mem_cons]
    refine ⟨⟨?_, ?_, nofun⟩, ⟨?_, ?_, nofun⟩, nofun⟩ <;> rintro payload ⟨⟩
  have hunpacked' : (Value.dict assortedIndex).Unpacked := Value.unpacked_dict.mpr
    fun entry hentry => Value.unpacked_dict.mp hunpacked entry (inKeyOrder_subset hentry)
  obtain ⟨b, hb⟩ : ∃ b, assorted.encode = .ok b := ⟨_, rfl⟩
  obtain ⟨c, hc⟩ : ∃ c, assortedIndex.encode = .ok c := ⟨_, rfl⟩
  have hequal : (assorted == assortedIndex) = true := by decide +kernel
  exact ⟨b, c, hb, hc, by decide, (encode_faithful hd he hb hc).2.2 hunpacked hunpacked' hequal⟩

end Dict

end ResourceTree
