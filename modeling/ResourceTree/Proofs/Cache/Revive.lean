import ResourceTree.Proofs.Cache.Conversion
import ResourceTree.Proofs.Compile.ReadBack

/-!
# Revived objects — what a saved object is loaded from

A saved tree is packed, stored, opened and made live, and each object is then loaded from a
dictionary. `revive` says which, without a word about octets: the members that the object saved,
made live in turn, with its type name. A dictionary among them that has a text as its type is taken
for an object as well.

* `savedMembers`, **`revive`**;
* `Value.Opens`: everything that is packed in a value can be opened, to the last layer;
* **`toLive_of_saves`**, `toLive_spelling`: making a saved value live revives the value;
* `Value.Plain`, **`revive_plain`**, `beq_of_plain`: values that come back as they were.
-/

namespace ResourceTree

open Compile (Saves keptMembers isPresent)

/-! ## Revived values -/

section

variable {σ : Type} [ObjectClass σ]

/-- What an object saved, with its type name, in key order. -/
def savedMembers (s : Store σ) (ref : ObjectRef) : List (String × Value) :=
  match (s.object? ref).map ObjectClass.saveToCache with
  | some (.ok d) => Dict.insertSorted Reserved.type (.string ref.typeName) (keptMembers s d)
  | _ => []

open Conversion in
/-- **A value is revived**, with so many levels left: an object is loaded from what it saved,
revived in turn. So is a dictionary that has a text as its type, whether or not it was an object. -/
def revive (s : Store σ) (registry : Registry σ) : Nat → Value → Conversion σ Value
  | 0, _ => .failed (.error tooDeep)
  | levels + 1, v =>
    match v with
    | .object ref => do
      objectToLive registry ref.typeName
        (← liveMembers (revive s registry levels) ∅ (savedMembers s ref))
    | .dict d => do
      let live ← liveMembers (revive s registry levels) ∅ (keptMembers s d)
      dictOrObject registry live ((d.get? Reserved.type).bind Value.asString?)
    | .list items => do
      return .list (← (items.filter (isPresent s)).mapM (revive s registry levels))
    | v => toLive registry (levels + 1) v

variable {s : Store σ} {registry : Registry σ}

theorem all_revive (levels : Nat) (v : Value) :
    (revive s registry levels v).All fun w => w.asString? = v.asString? := by
  cases levels with
  | zero => trivial
  | succ levels =>
    unfold revive
    split
    · exact (Conversion.all_true _).bind fun live _ => Conversion.all_objectToLive _ live
    · exact (Conversion.all_true _).bind fun live _ => Conversion.all_dictOrObject live _
    · exact (Conversion.all_true _).bind fun items _ => rfl
    · exact Conversion.all_toLive _ _

omit [ObjectClass σ] in
theorem lookup_keptMembers (s : Store σ) (d : Dict Value) (name : String) :
    ((keptMembers s d).lookup name).bind Value.asString? =
      (d.get? name).bind Value.asString? := by
  have hsorted : (Dict.names (Dict.inKeyOrder d.entries)).Nodup :=
    Dict.pairwise_inKeyOrder.imp fun hlt => ne_of_lt hlt
  have hkept : (Dict.names (keptMembers s d)).Nodup :=
    (Compile.pairwise_keptMembers s d).imp fun hlt => ne_of_lt hlt
  have hget : d.get? name = (Dict.inKeyOrder d.entries).lookup name := Dict.lookup_inKeyOrder.symm
  rw [hget]
  refine Option.ext fun text => ?_
  simp only [Option.bind_eq_some_iff, Dict.lookup_eq_some_iff_mem hsorted,
    Dict.lookup_eq_some_iff_mem hkept]
  refine exists_congr fun v => and_congr_left fun htext => ?_
  refine ⟨List.mem_of_mem_filter, fun hmem => List.mem_filter.mpr ⟨hmem, ?_⟩⟩
  cases v with
  | string text => rfl
  | _ => cases htext

/-! ## Opening -/

/-- **Everything that is packed in a value can be opened**, and what is packed in that as well. -/
inductive Value.Opens : Value → Prop where
  | intro {v : Value}
      (opened : ∀ payload, Within (.packed payload) v → ∃ d, payload.unpack = .ok d)
      (inside : ∀ payload d, Within (.packed payload) v → payload.unpack = .ok d →
        Opens (.dict d)) : Opens v

theorem Value.Opens.part {v x : Value} (h : v.Opens)
    (hx : ∀ payload, Within (.packed payload) x → Within (.packed payload) v) : x.Opens := by
  obtain ⟨opened, inside⟩ := h
  exact ⟨fun payload hin => opened payload (hx payload hin),
    fun payload d hin => inside payload d (hx payload hin)⟩

theorem Value.within_spelling {payload : Packed} {v : Value}
    (h : Within (.packed payload) v.spelling.value) : Within (.packed payload) v := by
  induction v using Value.induct with
  | dict d ih =>
    rw [Value.spelling_dict, Codec.Spelling.value, Codec.membersValue_eq, Dict.spelling,
      List.map_map] at h
    obtain _ | ⟨hmember, hin⟩ := h
    obtain ⟨entry, hentry, rfl⟩ := List.mem_map.mp (Dict.subperm_ofValues.subset hmember)
    have hmem : entry ∈ d.entries := Dict.inKeyOrder_subset hentry
    exact .member hmem (ih entry hmem hin)
  | list items ih =>
    rw [Value.spelling_list, Codec.Spelling.value, Codec.itemsValue_eq, List.map_map] at h
    obtain _ | _ | ⟨hmember, hin⟩ := h
    obtain ⟨item, hitem, rfl⟩ := List.mem_map.mp hmember
    exact .item hitem (ih item hitem hin)
  | packed payload => exact h
  | _ => cases h

theorem Value.Opens.spelling {v : Value} (h : v.Opens) : v.spelling.value.Opens :=
  h.part fun _ hin => within_spelling hin

theorem Packed.eq_of_unpack {d d' : Dict Value} {payload : Packed}
    (hwf : (Value.dict d).WellFormed) (h : Packed.ofDict d = .ok payload)
    (h' : payload.unpack = .ok d') : d' = Codec.dictValue d.spelling := by
  obtain ⟨bytes, hencode, rfl⟩ := Packed.encode_of_ofDict h
  exact Dict.eq_of_decode hwf hencode (Dict.decode_of_decodeCompressed h')

/-- A packed dictionary can be opened if it is not too deep, and all packed inside can be. -/
theorem Packed.opens_of_ofDict {d : Dict Value} {payload : Packed} (hwf : (Value.dict d).WellFormed)
    (h : Packed.ofDict d = .ok payload) (hlz4 : ∀ bytes, d.encode = .ok bytes → Lz4.Undoes bytes)
    (hdepth : d.depth ≤ Codec.depthLimit)
    (hinside : ∀ other, (Value.packed other).Within (.dict d) → (Value.packed other).Opens) :
    (Value.packed payload).Opens := by
  obtain ⟨read, hopened, -⟩ := (Packed.readsBack_of_ofDict hwf h hlz4).shallow hdepth
  constructor
  · rintro _ ⟨⟩
    exact ⟨read, hopened⟩
  · rintro _ read' ⟨⟩ hunpack
    obtain rfl := Packed.eq_of_unpack hwf h hunpack
    have hread : (Value.dict d).spelling.value = .dict (Codec.dictValue d.spelling) := by
      rw [Value.spelling_dict]
      rfl
    rw [← hread]
    refine ⟨fun other hin => ?_, fun other inner hin hinner => ?_⟩
    · obtain ⟨opened, -⟩ := hinside other (Value.within_spelling hin)
      exact opened other .self
    · obtain ⟨-, inside⟩ := hinside other (Value.within_spelling hin)
      exact inside other inner .self hinner

/-! ## Making a saved value live -/

open Conversion

theorem toLive_packed {payload : Packed} {d : Dict Value} (h : payload.unpack = .ok d)
    (levels : Nat) : toLive registry (levels + 1) (.packed payload) =
      dictToLive registry (toLive registry levels) d := by
  rw [toLive, h]

theorem toLive_leaf {v : Value} (h : v.IsLeaf) (levels : Nat) :
    toLive registry levels v.spelling.value = toLive registry levels v := by
  cases v with
  | bool b => cases b <;> rfl
  | resource handle => cases levels <;> rfl
  | dict d => exact h.elim
  | list items => exact h.elim
  | object ref => exact h.elim
  | _ => rfl

theorem revive_leaf {v : Value} (h : v.IsLeaf) (levels : Nat) :
    revive s registry levels v = toLive registry levels v := by
  cases levels with
  | zero => rfl
  | succ levels =>
    cases v with
    | dict d => exact h.elim
    | list items => exact h.elim
    | object ref => exact h.elim
    | _ => rfl

theorem entries_read {d : Dict Value} {pairs : List (String × Value × Value)}
    (hwf : (Value.dict d).WellFormed) (hl : (Value.dict d).Lifeless)
    (hentries : Dict.inKeyOrder d.entries = pairs.map (Prod.map id Prod.snd)) :
    (Codec.dictValue d.spelling).entries =
      pairs.map (Prod.map id fun pair => pair.2.spelling.value) := by
  rw [Codec.entries_dictValue_spelling hwf hl, hentries, List.map_map]
  rfl

theorem savedMembers_eq {ref : ObjectRef} {object : σ} {d : Dict Value}
    (hfound : s.object? ref = some object) (hsaves : ObjectClass.saveToCache object = .ok d) :
    savedMembers s ref =
      Dict.insertSorted Reserved.type (.string ref.typeName) (keptMembers s d) := by
  unfold savedMembers
  rw [hfound, Option.map_some, hsaves]

theorem entries_saved {d inner : Dict Value} {pairs : List (String × Value × Value)}
    {typeName : String} (hmembers : keptMembers s d = pairs.map (Prod.map id Prod.fst))
    (hsaved : ∀ pair ∈ pairs, Saves s pair.2.1 pair.2.2)
    (hinner : inner = (Dict.ofValues (pairs.map (Prod.map id Prod.snd))).set
      Reserved.type (.string typeName)) :
    Dict.inKeyOrder inner.entries =
      (Dict.insertSorted Reserved.type (Value.string typeName, Value.string typeName) pairs).map
        (Prod.map id Prod.snd) := by
  have hset : inner = (Dict.ofValues (pairs.map (Prod.map id Prod.snd))).insert
      Reserved.type (.string typeName) := hinner
  rw [hset, Dict.inKeyOrder_insert,
    Compile.entries_ofSaved hmembers hsaved,
    Dict.inKeyOrder_of_pairwise (Compile.pairwise_saved hmembers), ← Dict.insertSorted_map]

/-- What an object is packed from has an encoded form, if its lengths fit. -/
theorem packable_saved {d inner : Dict Value} {pairs : List (String × Value × Value)}
    {typeName : String} (hmembers : keptMembers s d = pairs.map (Prod.map id Prod.fst))
    (hsaved : ∀ pair ∈ pairs, Saves s pair.2.1 pair.2.2)
    (hinner : inner = (Dict.ofValues (pairs.map (Prod.map id Prod.snd))).set
      Reserved.type (.string typeName)) :
    (Value.dict inner).WellFormed ∧ (Value.dict inner).Lifeless := by
  have hdict : Saves s (.dict d) _ := .dict pairs hmembers hsaved
  have hstring : Saves s (.string typeName) (.string typeName) := .leaf trivial
  rw [hinner]
  exact ⟨Value.wellFormed_set hdict.wellFormed hstring.wellFormed,
    Value.lifeless_set hdict.wellFormed.root hdict.lifeless hstring.lifeless⟩

theorem opens_member {d : Dict Value} {pairs : List (String × Value × Value)}
    (hentries : d.entries = pairs.map (Prod.map id fun pair => pair.2.spelling.value))
    (hopens : (Value.dict d).Opens) : ∀ pair ∈ pairs, pair.2.2.spelling.value.Opens := by
  intro pair hpair
  have hmember : (pair.1, pair.2.2.spelling.value) ∈ d.entries := by
    rw [hentries]
    exact List.mem_map.mpr ⟨pair, hpair, rfl⟩
  exact hopens.part fun payload hin => .member hmember hin

theorem liveMembers_read {d : Dict Value} {pairs : List (String × Value × Value)} {levels : Nat}
    (hentries : d.entries = pairs.map (Prod.map id fun pair => pair.2.spelling.value))
    (h : ∀ pair ∈ pairs, pair.2.2.spelling.value.Opens →
      toLive registry levels pair.2.2.spelling.value = revive s registry levels pair.2.1)
    (hopens : (Value.dict d).Opens) :
    liveMembers (toLive registry levels) ∅ d.entries =
      liveMembers (revive s registry levels) ∅ (pairs.map (Prod.map id Prod.fst)) := by
  have hopen := opens_member hentries hopens
  rw [hentries]
  exact liveMembers_congr fun pair hpair => h pair hpair (hopen pair hpair)

theorem toLive_dict {d : Dict Value} {pairs : List (String × Value × Value)} {levels : Nat}
    (hmembers : keptMembers s d = pairs.map (Prod.map id Prod.fst))
    (hsaved : ∀ pair ∈ pairs, Saves s pair.2.1 pair.2.2)
    (h : ∀ pair ∈ pairs, pair.2.2.spelling.value.Opens →
      toLive registry levels pair.2.2.spelling.value = revive s registry levels pair.2.1)
    (hopens : (Value.dict (Codec.dictValue
      (Dict.ofValues (pairs.map (Prod.map id Prod.snd))).spelling)).Opens) :
    toLive registry (levels + 1) (.dict (Codec.dictValue
      (Dict.ofValues (pairs.map (Prod.map id Prod.snd))).spelling)) =
      revive s registry (levels + 1) (.dict d) := by
  have hsaves : Saves s (.dict d) _ := .dict pairs hmembers hsaved
  have hentries := entries_read hsaves.wellFormed hsaves.lifeless
    (by rw [Compile.entries_ofSaved hmembers hsaved,
      Dict.inKeyOrder_of_pairwise (Compile.pairwise_saved hmembers)])
  show dictToLive registry (toLive registry levels) _ = _
  rw [dictToLive_eq, liveMembers_read hentries h hopens, ← hmembers]
  -- the type that shows is the type that was saved
  refine (all_typeOf (all_revive levels) (Compile.pairwise_keptMembers s d)).bind_congr
    fun live htype => ?_
  rw [htype, lookup_keptMembers]

/-- **An object that was saved is revived** once its members are: it is loaded by its own type. -/
theorem toLive_object {ref : ObjectRef} {object : σ} {d : Dict Value} {payload : Packed}
    {pairs : List (String × Value × Value)} {levels : Nat}
    (hfound : s.object? ref = some object) (hsaves : ObjectClass.saveToCache object = .ok d)
    (hmembers : keptMembers s d = pairs.map (Prod.map id Prod.fst))
    (hsaved : ∀ pair ∈ pairs, Saves s pair.2.1 pair.2.2)
    {inner : Dict Value} (hinner : inner = (Dict.ofValues (pairs.map (Prod.map id Prod.snd))).set
      Reserved.type (.string ref.typeName)) (hpacked : Packed.ofDict inner = .ok payload)
    (h : ∀ pair ∈ pairs, pair.2.2.spelling.value.Opens →
      toLive registry levels pair.2.2.spelling.value = revive s registry levels pair.2.1)
    (hopens : (Value.packed payload).Opens) :
    toLive registry (levels + 1) (.packed payload) =
      revive s registry (levels + 1) (.object ref) := by
  obtain ⟨hwf, hlifeless⟩ := packable_saved hmembers hsaved hinner
  obtain ⟨hopened, hinside⟩ := hopens
  obtain ⟨read, hunpack⟩ := hopened payload .self
  have hopens := hinside payload read .self hunpack
  obtain rfl := Packed.eq_of_unpack hwf hpacked hunpack
  -- the type name is one more member
  have hall : ∀ pair ∈ Dict.insertSorted Reserved.type
      (Value.string ref.typeName, Value.string ref.typeName) pairs,
      pair.2.2.spelling.value.Opens →
        toLive registry levels pair.2.2.spelling.value = revive s registry levels pair.2.1 := by
    intro pair hpair hopen
    rcases List.mem_cons.mp (Dict.insertSorted_subperm.subset hpair) with rfl | hpair
    · exact (revive_leaf (v := .string ref.typeName) trivial levels).symm
    · exact h pair hpair hopen
  have hentries := entries_read hwf hlifeless (entries_saved hmembers hsaved hinner)
  have hlive := liveMembers_read hentries hall hopens
  have hkept := savedMembers_eq hfound hsaves
  have htype : (savedMembers s ref).lookup Reserved.type = some (.string ref.typeName) := by
    rw [hkept, Dict.lookup_insertSorted, if_pos rfl]
  have hsorted : (Dict.names (savedMembers s ref)).Pairwise (· < ·) := by
    rw [hkept]
    exact Dict.pairwise_insertSorted (Compile.pairwise_keptMembers s d)
  rw [← Dict.insertSorted_map, ← hmembers, ← hkept] at hlive
  rw [toLive_packed hunpack, dictToLive_eq, hlive]
  refine (all_typeOf (all_revive levels) hsorted).bind_congr fun live hshown => ?_
  rw [hshown, htype]
  rfl

/-- **Making a saved value live revives the value**, once it was packed and read. -/
theorem toLive_of_saves {v w : Value} (h : Saves s v w) (hopens : w.spelling.value.Opens)
    (levels : Nat) : toLive registry levels w.spelling.value = revive s registry levels v := by
  induction h generalizing levels with
  | leaf hleaf => rw [toLive_leaf hleaf, revive_leaf hleaf]
  | @dict d pairs members saved ih =>
    cases levels with
    | zero => rfl
    | succ levels =>
      rw [Value.spelling_dict] at hopens ⊢
      exact toLive_dict members saved (fun pair hpair hopen => ih pair hpair hopen levels) hopens
  | @list items pairs kept saved ih =>
    cases levels with
    | zero => rfl
    | succ levels =>
      rw [Value.spelling_list, Codec.Spelling.value, Codec.itemsValue_eq, List.map_map,
        List.map_map] at hopens ⊢
      show (do return Value.list (← List.mapM (toLive registry levels) _)) =
        (do return Value.list (← List.mapM (revive s registry levels) _))
      rw [kept]
      refine congrArg (· >>= fun items => pure (Value.list items)) (mapM_congr fun pair hpair => ?_)
      refine ih pair hpair (hopens.part fun payload hin => ?_) levels
      exact .item (List.mem_map.mpr ⟨pair, hpair, rfl⟩) hin
  | object pairs found saves members saved packed ih =>
    cases levels with
    | zero => rfl
    | succ levels =>
      exact toLive_object found saves members saved rfl packed
        (fun pair hpair hopen => ih pair hpair hopen levels) hopens

theorem toLive_spelling {v w : Value} (h : Saves s v w) (levels : Nat) :
    toLive registry levels w.spelling.value = toLive registry levels w := by
  induction h generalizing levels with
  | leaf hleaf => exact toLive_leaf hleaf levels
  | @dict d pairs members saved ih =>
    cases levels with
    | zero => rfl
    | succ levels =>
      have hsaves : Saves s (.dict d) _ := .dict pairs members saved
      have hentries := Compile.entries_ofSaved members saved
      rw [Value.spelling_dict]
      show dictToLive registry (toLive registry levels) _ =
        dictToLive registry (toLive registry levels) _
      rw [dictToLive_eq, dictToLive_eq, entries_read hsaves.wellFormed hsaves.lifeless
        (by rw [hentries, Dict.inKeyOrder_of_pairwise (Compile.pairwise_saved members)]), hentries]
      exact congrArg (· >>= _) (liveMembers_congr fun pair hpair => ih pair hpair levels)
  | @list items pairs kept saved ih =>
    cases levels with
    | zero => rfl
    | succ levels =>
      rw [Value.spelling_list, Codec.Spelling.value, Codec.itemsValue_eq, List.map_map,
        List.map_map]
      exact congrArg (· >>= fun items => pure (Value.list items))
        (mapM_congr fun pair hpair => ih pair hpair levels)
  | object => rfl

/-! ## Plain values -/

/-- **Plain values**: no object, packed dictionary or handle inside, and no dictionary that has a
text as its type. -/
structure Value.Plain (v : Value) : Prop where
  wellFormed : v.WellFormed
  noObject : ∀ ref, ¬ Within (.object ref) v
  noPacked : ∀ payload, ¬ Within (.packed payload) v
  noResource : ∀ handle, ¬ Within (.resource handle) v
  untyped : ∀ d, Within (.dict d) v → (d.get? Reserved.type).bind Value.asString? = none

theorem Value.Plain.part {v x : Value} (h : v.Plain) (hx : ∀ y, Within y x → Within y v) :
    x.Plain where
  wellFormed d hd := h.wellFormed d (hx _ hd)
  noObject ref hin := h.noObject ref (hx _ hin)
  noPacked payload hin := h.noPacked payload (hx _ hin)
  noResource handle hin := h.noResource handle (hx _ hin)
  untyped d hd := h.untyped d (hx _ hd)

omit [ObjectClass σ] in
theorem Value.Plain.isPresent {v : Value} (h : v.Plain) : isPresent s v = true := by
  cases v with
  | object ref => exact absurd .self (h.noObject ref)
  | _ => rfl

theorem Value.Plain.member {d : Dict Value} {entry : String × Value} (h : (Value.dict d).Plain)
    (hentry : entry ∈ d.entries) : entry.2.Plain :=
  h.part fun _ hin => .member hentry hin

theorem Value.Plain.item {items : List Value} {item : Value} (h : (Value.list items).Plain)
    (hitem : item ∈ items) : item.Plain :=
  h.part fun _ hin => .item hitem hin

omit [ObjectClass σ] in
theorem keptMembers_of_plain {d : Dict Value} (h : (Value.dict d).Plain) :
    keptMembers s d = Dict.inKeyOrder d.entries := by
  refine List.filter_eq_self.mpr fun entry hentry => ?_
  have hmem : entry ∈ d.entries := Dict.inKeyOrder_subset hentry
  have hnull : entry.2 ≠ .null := h.wellFormed.nullFree entry hmem
  simp [(h.member hmem).isPresent, Dict.isNull_eq_false_iff.mpr hnull]

theorem revive_plain_dict {d : Dict Value} {levels : Nat} (h : (Value.dict d).Plain)
    (hmembers : ∀ entry ∈ d.entries, Returns (levels + 1 ≤ (Value.dict d).depth)
      (revive s registry levels entry.2) entry.2.spelling.value) :
    Returns (levels + 1 ≤ (Value.dict d).depth) (revive s registry (levels + 1) (.dict d))
      (Value.dict d).spelling.value := by
  have hread : Codec.dictValue d.spelling = Dict.ofValues
      ((Dict.inKeyOrder d.entries).map (Prod.map id fun v => v.spelling.value)) := by
    rw [Codec.dictValue, Codec.membersValue_eq, Dict.spelling, List.map_map]
    rfl
  have hlive : Returns (levels + 1 ≤ (Value.dict d).depth)
      (liveMembers (revive s registry levels) ∅ (keptMembers s d))
      (Codec.dictValue d.spelling) := by
    rw [hread, keptMembers_of_plain h]
    exact returns_liveMembers ∅ fun entry hentry =>
      hmembers entry (Dict.inKeyOrder_subset hentry)
  rw [Value.spelling_dict]
  refine hlive.bind (.inl ?_)
  rw [h.untyped d .self]
  rfl

theorem revive_plain_list {items : List Value} {levels : Nat} (h : (Value.list items).Plain)
    (hitems : ∀ item ∈ items, Returns (levels + 1 ≤ (Value.list items).depth)
      (revive s registry levels item) item.spelling.value) :
    Returns (levels + 1 ≤ (Value.list items).depth) (revive s registry (levels + 1) (.list items))
      (Value.list items).spelling.value := by
  have hkept : items.filter (isPresent s) = items :=
    List.filter_eq_self.mpr fun item hmem => (h.item hmem).isPresent
  rw [Value.spelling_list, Codec.Spelling.value, Codec.itemsValue_eq, List.map_map]
  show Returns _ (do return Value.list (← List.mapM _ (items.filter (isPresent s)))) _
  rw [hkept]
  exact (returns_mapM hitems).bind (.inl rfl)

/-- **A plain value comes back as it is read**, where it is not too deep. -/
theorem revive_plain {v : Value} (h : v.Plain) (levels : Nat) :
    Returns (levels ≤ v.depth) (revive s registry levels v) v.spelling.value := by
  induction levels generalizing v with
  | zero => exact .inr ⟨Nat.zero_le _, rfl⟩
  | succ levels ih =>
    cases v with
    | dict d =>
      exact revive_plain_dict h fun entry hentry =>
        (ih (h.member hentry)).mono fun hdeep => hdeep.trans_lt (Value.depth_member hentry)
    | list items =>
      exact revive_plain_list h fun item hitem =>
        (ih (h.item hitem)).mono fun hdeep => hdeep.trans_lt (Value.depth_item hitem)
    | object ref => exact absurd .self (h.noObject ref)
    | packed payload => exact absurd .self (h.noPacked payload)
    | resource handle => exact absurd .self (h.noResource handle)
    | bool b => cases b <;> exact .inl rfl
    | _ => exact .inl rfl

theorem beq_of_plain {v : Value} (h : v.Plain) : (v.spelling.value == v) = true :=
  Codec.eqUsing_value_spelling Packed.beq_refl h.wellFormed h.noObject

end

end ResourceTree
