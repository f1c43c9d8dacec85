import Mathlib.Data.List.Flatten
import ResourceTree.Proofs.Codec.Reading
import ResourceTree.Proofs.Codec.Writing
import ResourceTree.Proofs.Value.Equality

/-!
# Round trips — encoding and decoding undo each other, up to normal form

* `eqUsing_value_spelling`: what is written for a value is read as an equal one;
* **`Dict.decode_encode`**: an encoded dictionary decodes to an equal one, when it is not too deep;
* `Normalizes`: a spelling that takes another one's place;
* `spelling_value_normalizes`, `spelling_value_of_canonical`: what is written for a value that was
  read;
* **`Dict.encode_decode`**: encoding what was decoded gives the normal form of the octets.
-/

namespace ResourceTree

namespace Codec

open List (Perm Subperm)

/-! ## From a value and back -/

theorem value_spelling_ne_null {v : Value} (h : v.Lifeless) (hv : v ≠ .null) :
    v.spelling.value ≠ .null := by
  cases v with
  | null => exact absurd rfl hv
  | object ref => exact absurd h Value.not_lifeless_object
  | _ => exact nofun

/-- The dictionary that is read from what is written for another one has the same entries in key
order, each with its value written and read. -/
theorem entries_dictValue_spelling {d : Dict Value} (h : (Value.dict d).WellFormed)
    (hl : (Value.dict d).Lifeless) :
    (dictValue d.spelling).entries =
      (Dict.inKeyOrder d.entries).map (Prod.map id fun v => v.spelling.value) := by
  have hmembers : membersValue d.spelling =
      (Dict.inKeyOrder d.entries).map (Prod.map id fun v => v.spelling.value) := by
    rw [membersValue_eq, Dict.spelling, List.map_map]
    rfl
  rw [dictValue, hmembers]
  refine Dict.entries_ofValues ?_ ?_
  · rw [Dict.names_map]
    exact Dict.pairwise_inKeyOrder
  · simp only [List.forall_mem_map]
    intro entry hentry
    have hmem : entry ∈ d.entries := Dict.inKeyOrder_subset hentry
    exact value_spelling_ne_null (Value.lifeless_dict.mp hl entry hmem) (h.nullFree entry hmem)

theorem perm_value_spelling {d : Dict Value} (h : (Value.dict d).WellFormed)
    (hl : (Value.dict d).Lifeless) :
    (dictValue d.spelling).entries.Perm
      (d.entries.map (Prod.map id fun v => v.spelling.value)) := by
  rw [entries_dictValue_spelling h hl]
  exact (Dict.inKeyOrder_perm h.root.nodup).map _

section

variable {packedEq : Packed → Packed → Bool}

/-- **What is written for a value is read as an equal one**, where equal octets are equal packed
dictionaries. -/
theorem eqUsing_value_spelling (hpacked : ∀ p, packedEq p p = true) {v : Value} (h : v.WellFormed)
    (hl : v.Lifeless) : Value.eqUsing packedEq v.spelling.value v = true := by
  induction v using Value.induct with
  | null => rfl
  | bool b => cases b <;> rfl
  | dict d ih =>
    rw [Value.spelling_dict, Spelling.value, Value.eqUsing_dict]
    exact Dict.eqUsing_of_perm h.root (perm_value_spelling h hl) fun entry hentry =>
      ih entry hentry (h.member hentry) (Value.lifeless_dict.mp hl entry hentry)
  | list items ih =>
    rw [Value.spelling_list, Spelling.value, itemsValue_eq, List.map_map]
    exact Value.itemsEq_map_iff.mpr fun item hi =>
      ih item hi (h.item hi) (Value.lifeless_list.mp hl item hi)
  | object ref => exact absurd hl Value.not_lifeless_object
  | packed payload => exact hpacked payload
  | _ => simp [Value.spelling, Spelling.value, Value.eqUsing, Handle.detached]

theorem eqUsing_dictValue_spelling (hpacked : ∀ p, packedEq p p = true) {d : Dict Value}
    (h : (Value.dict d).WellFormed) (hl : (Value.dict d).Lifeless) :
    Dict.eqUsing packedEq (dictValue d.spelling) d = true :=
  Dict.eqUsing_of_perm h.root (perm_value_spelling h hl) fun entry hentry =>
    eqUsing_value_spelling hpacked (h.member hentry) (Value.lifeless_dict.mp hl entry hentry)

end

theorem eq_of_le_iff {m n : Nat} (h : ∀ bound, m ≤ bound ↔ n ≤ bound) : m = n :=
  Nat.le_antisymm ((h n).mpr (Nat.le_refl n)) ((h m).mp (Nat.le_refl m))

theorem membersDepth_spelling {d : Dict Value} (h : d.WellFormed)
    (hd : ∀ entry ∈ d.entries, entry.2.spelling.depth = entry.2.depth) :
    membersDepth d.spelling = d.depth := by
  have hkeys : (Dict.inKeyOrder d.entries).Perm d.entries := Dict.inKeyOrder_perm h.nodup
  refine eq_of_le_iff fun bound => ?_
  rw [membersDepth_le, Dict.depth, Value.membersDepth_le, Dict.spelling]
  simp only [List.forall_mem_map, hkeys.mem_iff, Prod.map_snd]
  exact forall₂_congr fun entry hentry => by rw [hd entry hentry]

/-- What is written for a value is as deep as the value. -/
theorem depth_spelling {v : Value} (h : v.WellFormed) : v.spelling.depth = v.depth := by
  induction v using Value.induct with
  | dict d ih =>
    rw [Value.spelling_dict, Value.depth_dict, Spelling.depth, membersDepth_spelling h.root]
    exact fun entry hentry => ih entry hentry (h.member hentry)
  | list items ih =>
    refine eq_of_le_iff fun bound => ?_
    rw [Value.spelling_list, Spelling.depth, itemsDepth_le, Value.depth, Value.itemsDepth_le,
      List.forall_mem_map]
    exact forall₂_congr fun item hi => by rw [ih item hi (h.item hi)]
  | _ => rfl

/-! ## From octets and back -/

/-- A spelling that takes the place of another one: it fits, is in normal form, and is neither
longer nor deeper. -/
structure Normalizes (t s : Spelling) : Prop where
  fits : t.Fits
  canonical : t.Canonical
  short : t.bytes.length ≤ s.bytes.length
  shallow : t.depth ≤ s.depth

theorem normalizes_leaf {s t : Spelling} (ht : t.IsLeaf) (h : t.FitsHere) (hc : t.CanonicalHere)
    (hb : t.bytes.length = s.bytes.length) : Normalizes t s := by
  refine ⟨(Spelling.fits_leaf ht).mpr h, fun x hx => ?_, hb.le, ?_⟩
  · cases hx with
    | self => exact hc
    | member => exact absurd ht id
    | item => exact absurd ht id
  · cases t <;> first | exact Nat.zero_le _ | exact absurd ht id

theorem length_membersBytes_le {members other : List (String × Spelling)}
    (h : members.Subperm other) : (membersBytes members).length ≤ (membersBytes other).length := by
  obtain ⟨mid, hperm, hsub⟩ := h
  rw [membersBytes_eq, membersBytes_eq, ← (hperm.flatMap_right memberBytes).length_eq]
  exact (hsub.flatMap memberBytes).length_le

theorem length_membersBytes_map_le {members : List (String × Spelling)} {f : Spelling → Spelling}
    (h : ∀ member ∈ members, (f member.2).bytes.length ≤ member.2.bytes.length) :
    (membersBytes (members.map (Prod.map id f))).length ≤ (membersBytes members).length := by
  induction members with
  | nil => exact le_rfl
  | cons member rest ih =>
    obtain ⟨hmember, hrest⟩ := List.forall_mem_cons.mp h
    have := ih hrest
    simp only [List.map_cons, Prod.map, membersBytes, List.length_append, id] at this ⊢
    omega

theorem length_itemsBytes_map_le {items : List Spelling} {f : Spelling → Spelling}
    (h : ∀ item ∈ items, (f item).bytes.length ≤ item.bytes.length) :
    (itemsBytes (items.map f)).length ≤ (itemsBytes items).length := by
  induction items with
  | nil => exact le_rfl
  | cons item rest ih =>
    obtain ⟨hitem, hrest⟩ := List.forall_mem_cons.mp h
    have := ih hrest
    simp only [List.map_cons, itemsBytes, List.length_append]
    omega

theorem value_ne_null {s : Spelling} (h : s ≠ .null) : s.value ≠ .null := by
  cases s with
  | null => exact absurd rfl h
  | _ => exact nofun

theorem spelling_ne_null {v : Value} (hl : v.Lifeless) (hv : v ≠ .null) : v.spelling ≠ .null := by
  cases v with
  | null => exact absurd rfl hv
  | object ref => exact absurd hl Value.not_lifeless_object
  | dict d => rw [Value.spelling_dict]; exact nofun
  | list items => rw [Value.spelling_list]; exact nofun
  | _ => exact nofun

theorem exists_member {members : List (String × Spelling)} {entry : String × Value}
    (h : entry ∈ (dictValue members).entries) :
    ∃ member ∈ members, (member.1, member.2.value) = entry := by
  rw [dictValue, membersValue_eq] at h
  exact List.mem_map.mp (Dict.subperm_ofValues.subset h)

/-- What is written for a dictionary that was read: some of the members, each as it is written for
its value. -/
theorem subperm_spelling_value (members : List (String × Spelling)) :
    (dictValue members).spelling.Subperm
      (members.map (Prod.map id fun s => s.value.spelling)) := by
  have hmap : members.map (Prod.map id fun s => s.value.spelling) =
      (membersValue members).map (Prod.map id Value.spelling) := by
    rw [membersValue_eq, List.map_map]
    rfl
  obtain ⟨mid, hperm, hsub⟩ : (dictValue members).entries.Subperm (membersValue members) :=
    Dict.subperm_ofValues
  have hkeys : (Dict.inKeyOrder (dictValue members).entries).Perm (dictValue members).entries :=
    Dict.inKeyOrder_perm Dict.wellFormed_ofValues.nodup
  rw [hmap, Dict.spelling]
  exact ⟨mid.map (Prod.map id Value.spelling), (hperm.trans hkeys.symm).map _, hsub.map _⟩

theorem normalizes_dict {members : List (String × Spelling)} (h : (Spelling.dict members).Fits)
    (hl : (Value.dict (dictValue members)).Lifeless)
    (ih : ∀ member ∈ members, Normalizes member.2.value.spelling member.2) :
    Normalizes (.dict (dictValue members).spelling) (.dict members) := by
  obtain ⟨hlen, hmembers⟩ := Spelling.fits_dict.mp h
  have hsub := subperm_spelling_value members
  have hlen_le : (dictValue members).spelling.length ≤ members.length := by
    simpa using hsub.length_le
  have hmem : ∀ m ∈ (dictValue members).spelling, ∃ member ∈ members,
      (member.1, member.2.value.spelling) = m := fun m hm => List.mem_map.mp (hsub.subset hm)
  constructor
  case fits =>
    refine Spelling.fits_dict.mpr ⟨hlen_le.trans_lt hlen, fun m hm => ?_⟩
    obtain ⟨member, hmember, rfl⟩ := hmem m hm
    exact ⟨(hmembers member hmember).1, (ih member hmember).fits⟩
  case canonical =>
    refine Spelling.canonical_dict.mpr ⟨?_, fun m hm => ⟨?_, ?_⟩⟩
    · rw [Dict.spelling, Dict.names_map]
      exact Dict.pairwise_inKeyOrder
    · obtain ⟨entry, hentry, rfl⟩ := List.mem_map.mp hm
      have hfound : entry ∈ (dictValue members).entries :=
        (Dict.inKeyOrder_perm Dict.wellFormed_ofValues.nodup).mem_iff.mp hentry
      exact spelling_ne_null (Value.lifeless_dict.mp hl entry hfound)
        (Dict.nullFree_ofValues entry hfound)
    · obtain ⟨member, hmember, rfl⟩ := hmem m hm
      exact (ih member hmember).canonical
  case short =>
    have hbytes :
        (membersBytes (dictValue members).spelling).length ≤ (membersBytes members).length :=
      (length_membersBytes_le hsub).trans
        (length_membersBytes_map_le fun member hmember => (ih member hmember).short)
    simp only [Spelling.bytes, List.length_cons, List.length_append, Bytes.length_ofNat]
    omega
  case shallow =>
    refine Nat.succ_le_succ (membersDepth_le.mpr fun m hm => ?_)
    obtain ⟨member, hmember, rfl⟩ := hmem m hm
    exact (Nat.succ_le_succ (ih member hmember).shallow).trans
      (membersDepth_le.mp le_rfl member hmember)

theorem normalizes_list {items : List Spelling} {f : Spelling → Spelling}
    (hlen : Spelling.LengthFits items.length) (h : ∀ item ∈ items, Normalizes (f item) item) :
    Normalizes (.list (items.map f)) (.list items) := by
  constructor
  case fits =>
    refine Spelling.fits_list.mpr ⟨by rwa [List.length_map], List.forall_mem_map.mpr ?_⟩
    exact fun item hi => (h item hi).fits
  case canonical =>
    exact Spelling.canonical_list.mpr (List.forall_mem_map.mpr fun item hi => (h item hi).canonical)
  case short =>
    have := length_itemsBytes_map_le fun item hi => (h item hi).short
    simp only [Spelling.bytes, List.length_cons, List.length_append, Bytes.length_ofNat]
    omega
  case shallow =>
    refine itemsDepth_le.mpr (List.forall_mem_map.mpr fun item hi => ?_)
    exact (Nat.succ_le_succ (h item hi).shallow).trans (itemsDepth_le.mp le_rfl item hi)

theorem wellFormed_value (s : Spelling) : s.value.WellFormed := by
  induction s using Spelling.induct with
  | dict members ih =>
    refine Value.wellFormed_dict Dict.wellFormed_ofValues Dict.nullFree_ofValues
      fun entry hentry => ?_
    obtain ⟨member, hmember, rfl⟩ := exists_member hentry
    exact ih member hmember
  | list items ih =>
    rw [Spelling.value, itemsValue_eq]
    exact Value.wellFormed_list (List.forall_mem_map.mpr ih)
  | _ => rintro d ⟨⟩

theorem lifeless_value (s : Spelling) : s.value.Lifeless := by
  induction s using Spelling.induct with
  | dict members ih =>
    refine Value.lifeless_dict.mpr fun entry hentry => ?_
    obtain ⟨member, hmember, rfl⟩ := exists_member hentry
    exact ih member hmember
  | list items ih =>
    rw [Spelling.value, itemsValue_eq]
    exact Value.lifeless_list.mpr (List.forall_mem_map.mpr ih)
  | _ => rintro ref ⟨⟩

/-- **What is written for a value that was read is its normal form.** -/
theorem spelling_value_normalizes {s : Spelling} (h : s.Fits) : Normalizes s.value.spelling s := by
  induction s using Spelling.induct with
  | bool octet =>
    refine normalizes_leaf trivial trivial ?_ rfl
    simp only [Spelling.value, Value.spelling, Spelling.CanonicalHere]
    split_ifs
    · exact .inr rfl
    · exact .inl rfl
  | dict members ih =>
    rw [Spelling.value, Value.spelling_dict]
    exact normalizes_dict h (lifeless_value (.dict members)) fun member hm =>
      ih member hm ((Spelling.fits_dict.mp h).2 member hm).2
  | list items ih =>
    obtain ⟨hlen, hitems⟩ := Spelling.fits_list.mp h
    rw [Spelling.value, itemsValue_eq, Value.spelling_list, List.map_map]
    exact normalizes_list hlen fun item hi => ih item hi (hitems item hi)
  | null => exact normalizes_leaf trivial trivial trivial rfl
  | number bits => exact normalizes_leaf trivial trivial trivial rfl
  | string s => exact normalizes_leaf trivial (h _ .self) trivial rfl
  | binary bytes => exact normalizes_leaf trivial (h _ .self) trivial rfl
  | packed bytes => exact normalizes_leaf trivial (h _ .self) trivial rfl
  | resource name => exact normalizes_leaf trivial (h _ .self) trivial rfl

theorem spelling_dictValue_of_canonical {members : List (String × Spelling)}
    (h : (Spelling.dict members).Canonical)
    (ih : ∀ member ∈ members, member.2.value.spelling = member.2) :
    (dictValue members).spelling = members := by
  obtain ⟨hnames, hmembers⟩ := Spelling.canonical_dict.mp h
  have hvalues : (Dict.names (membersValue members)).Pairwise (· < ·) := by
    rwa [membersValue_eq, Dict.names_map]
  have hne : ∀ entry ∈ membersValue members, entry.2 ≠ .null := by
    rw [membersValue_eq]
    exact List.forall_mem_map.mpr fun member hm => value_ne_null (hmembers member hm).1
  have hperm : (dictValue members).entries.Perm (membersValue members) :=
    Dict.perm_ofValues (hvalues.imp fun hlt => ne_of_lt hlt) hne
  calc (dictValue members).spelling
      = (Dict.inKeyOrder (membersValue members)).map (Prod.map id Value.spelling) := by
        rw [Dict.spelling, Dict.inKeyOrder_eq_of_perm Dict.wellFormed_ofValues.nodup hperm]
    _ = (membersValue members).map (Prod.map id Value.spelling) := by
        rw [Dict.inKeyOrder_of_pairwise hvalues]
    _ = members.map (Prod.map id fun s => s.value.spelling) := by
        rw [membersValue_eq, List.map_map]
        rfl
    _ = members := by
        refine (List.map_congr_left fun member hm => ?_).trans (List.map_id members)
        exact Prod.ext rfl (ih member hm)

/-- **A spelling in normal form is what is written for its value.** -/
theorem spelling_value_of_canonical {s : Spelling} (h : s.Canonical) : s.value.spelling = s := by
  induction s using Spelling.induct with
  | bool octet =>
    rcases h _ .self with rfl | rfl <;> rfl
  | dict members ih =>
    rw [Spelling.value, Value.spelling_dict]
    exact congrArg Spelling.dict (spelling_dictValue_of_canonical h fun member hm =>
      ih member hm ((Spelling.canonical_dict.mp h).2 member hm).2)
  | list items ih =>
    rw [Spelling.value, itemsValue_eq, Value.spelling_list, List.map_map]
    refine congrArg Spelling.list
      ((List.map_congr_left fun item hi => ?_).trans (List.map_id items))
    exact ih item hi (Spelling.canonical_list.mp h item hi)
  | _ => rfl

end Codec

namespace Dict

open Codec

theorem spelling_dictValue {members : List (String × Spelling)}
    (h : (Spelling.dict members).Canonical) : (dictValue members).spelling = members := by
  have hsame := spelling_value_of_canonical h
  rwa [Spelling.value, Value.spelling_dict, Spelling.dict.injEq] at hsame

theorem encode_dictValue {members : List (String × Spelling)}
    (h : (Spelling.dict (dictValue members).spelling).Fits) :
    (dictValue members).encode = .ok (dictBytes (dictValue members).spelling) := by
  refine (encode_eq_ok_iff (wellFormed_value (.dict members))).mpr
    ⟨⟨lifeless_value (.dict members), ?_⟩, rfl⟩
  rwa [Value.spelling_dict]

theorem encode_dictValue_of_canonical {members : List (String × Spelling)}
    (h : (Spelling.dict members).Fits) (hc : (Spelling.dict members).Canonical) :
    (dictValue members).encode = .ok (dictBytes members) := by
  have hsame := spelling_dictValue hc
  have hencode := encode_dictValue (hsame.symm ▸ h)
  rwa [hsame] at hencode

/-! ## Dictionaries -/

/-- What is written for a dictionary that is not too deep is read back, in the end, as the
dictionary of its spelling. -/
theorem decode_of_encode {d : Dict Value} (h : (Value.dict d).WellFormed) {b : Bytes}
    (hb : d.encode = .ok b) :
    (d.depth ≤ depthLimit → Dict.decode b = .ok (dictValue d.spelling)) ∧
      (depthLimit < d.depth → ∃ fault, TooDeep fault ∧ Dict.decode b = .error fault) := by
  obtain ⟨⟨_, hfits⟩, rfl⟩ := (encode_eq_ok_iff h).mp hb
  rw [Value.spelling_dict] at hfits
  have hdepth : membersDepth d.spelling = d.depth :=
    membersDepth_spelling h.root fun entry hentry => depth_spelling (h.member hentry)
  exact ⟨fun hle => decode_eq_ok_iff.mpr ⟨d.spelling, hfits, hdepth ▸ hle, rfl, rfl⟩,
    fun hlt => decode_dictBytes_of_deep hfits (hdepth ▸ hlt)⟩

/-- **Decoding undoes encoding**, up to the depth limit and no further: the dictionary that is
read equals the one that was written, its packed dictionaries octet by octet. -/
theorem decode_encode {d : Dict Value} (h : (Value.dict d).WellFormed) {b : Bytes}
    (hb : d.encode = .ok b) :
    (d.depth ≤ depthLimit → ∃ d', Dict.decode b = .ok d' ∧ (d' == d) = true ∧
        Dict.eqUsing (· == ·) d' d = true) ∧
      (depthLimit < d.depth →
        Dict.decode b = .error .dictTooDeep ∨ Dict.decode b = .error .valueTooDeep) := by
  obtain ⟨hshallow, hdeep⟩ := decode_of_encode h hb
  have hl : (Value.dict d).Lifeless := ((encode_eq_ok_iff h).mp hb).1.1
  constructor
  · intro hle
    exact ⟨dictValue d.spelling, hshallow hle, eqUsing_dictValue_spelling Packed.beq_refl h hl,
      eqUsing_dictValue_spelling beq_self_eq_true h hl⟩
  · intro hlt
    obtain ⟨fault, rfl | rfl, hfault⟩ := hdeep hlt
    · exact .inl hfault
    · exact .inr hfault

/-! ### The limit is reached -/

/-- Dictionaries one inside the other, so many times. -/
def nested : Nat → List (String × Spelling)
  | 0 => []
  | n + 1 => [("inner", .dict (nested n))]

theorem fits_nested (n : Nat) : (Spelling.dict (nested n)).Fits := by
  have hempty : Spelling.LengthFits 0 := by decide
  have hone : Spelling.LengthFits 1 := by decide
  have hname : Spelling.LengthFits (Bytes.ofString "inner").length := by decide
  induction n with
  | zero => exact Spelling.fits_dict.mpr ⟨hempty, nofun⟩
  | succ n ih =>
    refine Spelling.fits_dict.mpr ⟨hone, fun member hm => ?_⟩
    obtain rfl := List.mem_singleton.mp hm
    exact ⟨hname, ih⟩

theorem canonical_nested (n : Nat) : (Spelling.dict (nested n)).Canonical := by
  induction n with
  | zero => exact Spelling.canonical_dict.mpr ⟨List.Pairwise.nil, nofun⟩
  | succ n ih =>
    refine Spelling.canonical_dict.mpr ⟨List.pairwise_singleton _ _, fun member hm => ?_⟩
    obtain rfl := List.mem_singleton.mp hm
    exact ⟨nofun, ih⟩

theorem encode_nested (n : Nat) : (dictValue (nested n)).encode = .ok (dictBytes (nested n)) :=
  encode_dictValue_of_canonical (fits_nested n) (canonical_nested n)

theorem depth_nested (n : Nat) : (dictValue (nested n)).depth = 2 * n := by
  induction n with
  | zero => rfl
  | succ n ih =>
    have hstep : (dictValue (nested (n + 1))).depth = (dictValue (nested n)).depth + 1 + 1 := rfl
    rw [hstep, ih]
    omega

/-- 128 dictionaries inside each other decode, one more does not. -/
theorem decode_encode_nested :
    (∃ d', Dict.decode (dictBytes (nested 128)) = .ok d' ∧
      (d' == dictValue (nested 128)) = true ∧
      Dict.eqUsing (· == ·) d' (dictValue (nested 128)) = true) ∧
    (Dict.decode (dictBytes (nested 129)) = .error .dictTooDeep ∨
      Dict.decode (dictBytes (nested 129)) = .error .valueTooDeep) :=
  ⟨(decode_encode (wellFormed_value (.dict (nested 128))) (encode_nested 128)).1
      (depth_nested 128).le,
    (decode_encode (wellFormed_value (.dict (nested 129))) (encode_nested 129)).2
      ((by decide : depthLimit < 2 * 129).trans_eq (depth_nested 129).symm)⟩

/-- **Encoding what was decoded gives the normal form of the octets**: no longer than they were,
read as an equal dictionary, written the same again, and the octets themselves exactly when they
are in normal form. -/
theorem encode_decode {b : Bytes} {d : Dict Value} (h : Dict.decode b = .ok d) :
    ∃ b' d', d.encode = .ok b' ∧ b'.length ≤ b.length ∧ Dict.decode b' = .ok d' ∧
      (d' == d) = true ∧ d'.encode = .ok b' ∧ (b' = b ↔ Codec.Canonical b) := by
  obtain ⟨members, hfits, hdepth, rfl, rfl⟩ := decode_eq_ok_iff.mp h
  obtain ⟨normal, hnormal⟩ : ∃ normal, normal = (dictValue members).spelling := ⟨_, rfl⟩
  have hnorm : Normalizes (.dict normal) (.dict members) := by
    rw [hnormal, ← Value.spelling_dict]
    exact spelling_value_normalizes hfits
  have hencode : (dictValue members).encode = .ok (dictBytes normal) :=
    hnormal ▸ encode_dictValue (hnormal ▸ hnorm.fits)
  have hencode' : (dictValue normal).encode = .ok (dictBytes normal) :=
    encode_dictValue_of_canonical hnorm.fits hnorm.canonical
  have hdecode : Dict.decode (dictBytes normal) = .ok (dictValue normal) :=
    decode_eq_ok_iff.mpr ⟨normal, hnorm.fits, Nat.succ_le_succ_iff.mp
      (hnorm.shallow.trans (Nat.succ_le_succ hdepth)), rfl, rfl⟩
  refine ⟨dictBytes normal, dictValue normal, hencode, ?_, hdecode, ?_, hencode', ?_⟩
  · exact Nat.succ_le_succ_iff.mp hnorm.short
  · rw [hnormal]
    exact eqUsing_dictValue_spelling Packed.beq_refl (wellFormed_value (.dict members))
      (lifeless_value (.dict members))
  · constructor
    · intro heq
      exact heq ▸ (canonical_dictBytes_iff hnorm.fits).mpr hnorm.canonical
    · intro hc
      rw [hnormal, spelling_dictValue ((canonical_dictBytes_iff hfits).mp hc)]

/-- Octets with names out of order and twice, a null member and other octets than 0 and 1 for
true. -/
def untidy : Bytes := dictBytes
  [("b", .bool 2), ("a", .number 0), ("b", .null), ("a", .bool 7)]

theorem encode_decode_untidy : ∃ d b' d', Dict.decode untidy = .ok d ∧ d.encode = .ok b' ∧
    b'.length ≤ untidy.length ∧ Dict.decode b' = .ok d' ∧ (d' == d) = true ∧
    d'.encode = .ok b' ∧ (b' = untidy ↔ Codec.Canonical untidy) :=
  have hdecode : Dict.decode untidy = .ok (Dict.ofValues [("a", .bool true)]) := rfl
  let ⟨b', d', h⟩ := encode_decode hdecode
  ⟨_, b', d', hdecode, h⟩

end Dict

end ResourceTree
