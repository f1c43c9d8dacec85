import ResourceTree.Example.Item
import ResourceTree.Files.Memory
import ResourceTree.Proofs.Cache.Revive
import ResourceTree.Proofs.Compile.Savable

/-!
# Saved objects — what they are loaded from

A cache that serves a saved tree loads each object in it from what the object saved, with its type
name: other objects in this are loaded first, handles become those of the same names, and what is
plain comes back as an equal value.

* `Compile.ComesBack`, `Compile.LoadsAs`, **`Compile.load_saved`**;
* `Compile.chest`: an object that holds another one, a handle and a dictionary;
* `Compile.typedProbe`: an object that is not loaded from the dictionary that it saved.
-/

namespace ResourceTree

/-! ## Saved objects -/

namespace Compile

open ResourceTree.Action Conversion

variable {σ : Type} [ObjectClass σ]

/-- **How what was saved comes back**, by a registry that knows its types. -/
structure ComesBack (s : Store σ) (registry : Registry σ) : Prop where
  /-- An object is loaded from the members that it saved, which come back in turn, with its type
  name. -/
  object : ∀ {ref object members fresh} levels, s.object? ref = some object →
    ObjectClass.saveToCache object = .ok members → registry.create? ref.typeName = some fresh →
    revive s registry (levels + 1) (.object ref) = (do
      let live ← liveMembers (revive s registry levels) ∅
        (Dict.insertSorted Reserved.type (.string ref.typeName) (keptMembers s members))
      match ObjectClass.loadFromCache fresh live with
      | .error failure => .failed failure
      | .ok item => .object item fun answer => .done (.object answer))
  /-- A dictionary that has a text as its type becomes an object of this type. -/
  typed : ∀ {d typeName} levels, (d.get? Reserved.type).bind Value.asString? = some typeName →
    revive s registry (levels + 1) (.dict d) = (do
      objectToLive registry typeName
        (← liveMembers (revive s registry levels) ∅ (keptMembers s d)))
  /-- A packed dictionary is opened and made live. -/
  packed : ∀ {payload d} levels, payload.unpack = .ok d →
    revive s registry (levels + 1) (.packed payload) =
      dictToLive registry (toLive registry levels) d
  /-- A handle becomes the handle of its name. -/
  resource : ∀ {h : Handle} levels, revive s registry (levels + 1) (.resource h) =
    .handle h.name fun answer => .done (.resource answer)
  /-- A plain value comes back as an equal one, or it is too deep. -/
  plain : ∀ {v : Value} levels, v.Plain →
    (∃ v', revive s registry levels v = .done v' ∧ (v' == v) = true) ∨
      levels ≤ v.depth ∧ revive s registry levels v = .failed (.error tooDeep)

theorem comesBack (s : Store σ) (registry : Registry σ) : ComesBack s registry where
  object {ref object members fresh} levels hfound hsaves hfresh := by
    rw [← savedMembers_eq hfound hsaves]
    show liveMembers (revive s registry levels) ∅ (savedMembers s ref) >>=
      objectToLive registry ref.typeName = _
    refine congrArg _ (funext fun live => ?_)
    cases hload : ObjectClass.loadFromCache fresh live <;>
      simp only [objectToLive, Registry.tryCreate, hfresh, hload]
  typed {d typeName} levels htype := by
    show (do
      let live ← liveMembers (revive s registry levels) ∅ (keptMembers s d)
      dictOrObject registry live ((d.get? Reserved.type).bind Value.asString?)) = _
    rw [htype]
    rfl
  packed levels hunpack := toLive_packed hunpack levels
  resource levels := rfl
  plain levels h :=
    (revive_plain h levels).imp_left fun hdone => ⟨_, hdone, beq_of_plain h⟩

/-- A cache serves a value for a name, as it is or as it is read once it was written. -/
def ServesFor (c : Cache σ) (name : String) (w : Value) : Prop :=
  c.resources.get? name = some w ∨ c.resources.get? name = some w.spelling.value

/-- **What a saved value is loaded as**, with what else is said of the objects in it. -/
structure LoadsAs (s : Store σ) (v w : Value) : Prop where
  /-- An entry that is served is revived. -/
  entry : ∀ {c : Cache σ} {name}, ServesFor c name w →
    c.conversion name = revive s c.registry (depthLimit + 1) v
  /-- So is a part of an entry. -/
  part : ∀ (registry : Registry σ) levels,
    toLive registry levels w = revive s registry levels v ∧
      toLive registry levels w.spelling.value = revive s registry levels v
  back : ∀ registry, ComesBack s registry

theorem loadsAs_of_saves {s : Store σ} {v w : Value} (h : Saves s v w) (hopens : w.Opens) :
    LoadsAs s v w where
  entry := by
    rintro c name (hserved | hserved)
    · rw [Cache.conversion, hserved, ofStored, ← toLive_spelling h,
        toLive_of_saves h hopens.spelling]
    · rw [Cache.conversion, hserved, ofStored, toLive_of_saves h hopens.spelling]
  part registry levels := by
    have hread : toLive registry levels w.spelling.value = revive s registry levels v :=
      toLive_of_saves h hopens.spelling levels
    exact ⟨by rw [← toLive_spelling h, hread], hread⟩
  back := comesBack s

/-- **What saved objects are loaded from.** Where a value was saved without a diagnostic, a cache
that serves what it was saved as, without flags, revives it: every object in it is loaded from what
it saved, revived, with its type name. What is plain in this comes back as an equal value; a
dictionary that has a text as its type does not. -/
theorem load_saved {setting : Setting σ} {p q : Progress σ} {levels : Nat} {v w : Value}
    {place : Place} (hrun : (saved.visitWithin levels v place).run setting p = (.ok (some w), q))
    (hquiet : q.errors.size = p.errors.size) (hwf : v.WellFormed)
    (hopens : (withoutFlags w).Opens) : LoadsAs p.store (withoutFlags v) (withoutFlags w) := by
  obtain ⟨-, -, hsaved⟩ := savesEach_visitWithin levels v place setting p (some w) q rfl hrun
  have hsaves : Saves p.store v w := hsaved hquiet
  exact loadsAs_of_saves (hsaves.withoutFlags hwf) hopens

/-- An object that is small once it was saved is packed, and can be opened again. -/
theorem exists_packed {s : Store σ} {ref : ObjectRef} {object : σ} {d : Dict Value}
    {pairs : List (String × Value × Value)} (inner : Dict Value) (n : Nat)
    (hfound : s.object? ref = some object) (hsave : ObjectClass.saveToCache object = .ok d)
    (hpairs : ∀ pair ∈ pairs, Saves s pair.2.1 pair.2.2)
    (hmembers : keptMembers s d = pairs.map (Prod.map id Prod.fst))
    (hinner : inner = (Dict.ofValues (pairs.map (Prod.map id Prod.snd))).set Reserved.type
      (.string ref.typeName))
    (hencode : (inner.encode.toOption.any fun bytes => decide (bytes.length ≤ n)) = true)
    (hsmall : n < Nat.pow 2 32) (hdepth : inner.depth ≤ Codec.depthLimit)
    (hinside : ∀ other, (Value.packed other).Within (.dict inner) → (Value.packed other).Opens) :
    ∃ payload, Saves s (.object ref) (.packed payload) ∧ (Value.packed payload).Opens ∧
      payload.bytes.length ≤ 7 * n + 6 := by
  cases hbytes : inner.encode with
  | error fault =>
    rw [hbytes] at hencode
    cases hencode
  | ok bytes =>
    rw [hbytes] at hencode
    have hlength : bytes.length ≤ n := of_decide_eq_true hencode
    have hpacked : Packed.ofDict inner = .ok ⟨Lz4.compress bytes⟩ := by
      rw [Packed.ofDict, hbytes]
      rfl
    have hlz4 : ∀ bytes, inner.encode = .ok bytes → Lz4.Undoes bytes := by
      intro bytes' hbytes'
      obtain rfl := Except.ok.inj (hbytes.symm.trans hbytes')
      exact Lz4.decompress_compress bytes (hlength.trans_lt hsmall)
    obtain ⟨hwf, -⟩ := packable_saved hmembers hpairs hinner
    refine ⟨_, .object pairs hfound hsave hmembers hpairs (hinner ▸ hpacked),
      Packed.opens_of_ofDict hwf hpacked hlz4 hdepth hinside, ?_⟩
    exact (Lz4.length_compress_le bytes).trans (by omega)

/-! ### A chest -/

/-- A store with one object, and the reference to it. -/
def storeOf (item : Item) : Store Item := (Store.empty.addObject item.typeName item).2

def refOf (item : Item) : ObjectRef := (Store.empty.addObject item.typeName item).1

def bareSetting : Setting Item :=
  Setting.of ⟨"/"⟩ false (FileView.of MemoryFiles.empty) Item.registry none

/-- The visit that saves the object. -/
def visitOf (item : Item) : Except Crash (Option Value) × Progress Item :=
  (saved.visitWithin 1 (.object (refOf item)) (Place.root 0)).run bareSetting
    (Progress.initial (storeOf item))

/-- A cache that serves one value. -/
def serving (w : Value) : Cache Item :=
  { Cache.new 0 Item.registry with resources := Dict.ofValues [("it", w)] }

/-- A sprite sheet without frames. -/
def sheet : Item := .spriteSheet .fresh

/-- What the sprite sheet is packed from. -/
def sheetInner : Dict Value :=
  Dict.ofValues [("frame_height", .number .zero), ("frame_width", .number .zero),
    ("type", .string "sprite_sheet")]

theorem not_within_sheetInner (payload : Packed) :
    ¬ (Value.packed payload).Within (.dict sheetInner) := by
  have hentries : sheetInner.entries = [("frame_height", .number .zero),
    ("frame_width", .number .zero), ("type", .string "sprite_sheet")] := rfl
  rintro (_ | ⟨hentry, hin⟩)
  rw [hentries] at hentry
  simp only [List.mem_cons, List.not_mem_nil, or_false] at hentry
  rcases hentry with rfl | rfl | rfl <;> cases hin

theorem saves_sheet {s : Store Item} (hfound : s.object? (refOf sheet) = some sheet) :
    ∃ payload, Saves s (.object (refOf sheet)) (.packed payload) ∧ (Value.packed payload).Opens ∧
      payload.bytes.length ≤ 1000 := by
  have hpairs : ∀ pair ∈ [("frame_height", Value.number .zero, Value.number .zero),
      ("frame_width", .number .zero, .number .zero)], Saves s pair.2.1 pair.2.2 := by
    simp only [List.forall_mem_cons]
    exact ⟨.leaf trivial, .leaf trivial, nofun⟩
  obtain ⟨payload, hsaves, hopens, hlength⟩ := exists_packed sheetInner 100 hfound rfl hpairs rfl
    rfl (by decide +kernel) (by decide) (by decide +kernel)
    fun other hin => absurd hin (not_within_sheetInner other)
  exact ⟨payload, hsaves, hopens, hlength.trans (by decide)⟩

/-- A plain dictionary with another one inside. -/
def label : Dict Value :=
  Dict.ofValues [("size", .number .zero), ("tags", .dict (Dict.ofValues [("old", .bool true)]))]

/-- A handle of a compile. -/
def wood : Handle := ⟨"wood", some 0⟩

/-- A thing that holds a sprite sheet, a handle and a plain dictionary. -/
def chest : Item := .thing { Thing.fresh with
  after := [.object (refOf sheet), .resource wood]
  kept := some (.dict label) }

/-- A store of the chest and all that it holds. -/
def chestStore : Store Item :=
  (((storeOf sheet).newHandle "wood" .null).2.addObject chest.typeName chest).2

def chestRef : ObjectRef := ⟨1, chest.typeName⟩

/-- What the chest saves. -/
def chestMembers : Dict Value :=
  Dict.ofValues [("n", .number .zero), ("after", .list [.object (refOf sheet), .resource wood]),
    ("keep", .dict label)]

/-- What the chest is packed from. -/
def chestInner (payload : Packed) : Dict Value :=
  Dict.ofValues [("after", .list [.packed payload, .resource wood]), ("keep", .dict label),
    ("n", .number .zero), ("type", .string "thing")]

/-- What the chest is loaded from. -/
def chestLoaded (part : ObjectRef) (link : Handle) : Dict Value :=
  Dict.ofValues [("after", .list [.object part, .resource link]), ("keep", .dict label),
    ("n", .number .zero), ("type", .string "thing")]

theorem saveToCache_chest : ObjectClass.saveToCache chest = .ok chestMembers := rfl

theorem keptMembers_chest : keptMembers chestStore chestMembers =
    [("after", .list [.object (refOf sheet), .resource wood]), ("keep", .dict label),
      ("n", .number .zero)] := rfl

theorem entries_chestInner (payload : Packed) : (chestInner payload).entries =
    [("after", .list [.packed payload, .resource wood]), ("keep", .dict label),
      ("n", .number .zero), ("type", .string "thing")] := rfl

open Codec in
/-- How the chest is written. -/
def chestSpelling (bytes : Bytes) : List (String × Spelling) :=
  [("after", .list [.packed bytes, .resource "wood"]), ("keep", .dict label.spelling),
    ("n", .number Number.zero.bits), ("type", .string "thing")]

theorem spelling_chestInner (payload : Packed) :
    (chestInner payload).spelling = chestSpelling payload.bytes := by
  have hsorted : (Dict.names (chestInner payload).entries).Pairwise (· < ·) := by
    show List.Pairwise (· < ·) ["after", "keep", "n", "type"]
    decide
  rw [Dict.spelling, Dict.inKeyOrder_of_pairwise hsorted, entries_chestInner]
  simp only [List.map_cons, List.map_nil, Prod.map, id, Value.spelling_dict]
  rfl

open Codec in
theorem length_chestSpelling (bytes : Bytes) : (dictBytes (chestSpelling bytes)).length =
    (dictBytes (chestSpelling [])).length + bytes.length := by
  simp only [chestSpelling, dictBytes, membersBytes, itemsBytes, Spelling.bytes, counted,
    List.length_append, List.length_cons, List.length_nil, Bytes.length_ofNat]
  omega

theorem wellFormed_label : (Value.dict label).WellFormed := by
  refine Value.wellFormed_ofValues ?_
  simp only [List.forall_mem_cons]
  exact ⟨Value.wellFormed_leaf nofun nofun, Value.wellFormed_ofValues
    (List.forall_mem_singleton.mpr (Value.wellFormed_leaf nofun nofun)), nofun⟩

theorem wellFormed_chestInner (payload : Packed) :
    (Value.dict (chestInner payload)).WellFormed := by
  have hlist : (Value.list [.packed payload, .resource wood]).WellFormed := by
    refine Value.wellFormed_list ?_
    simp only [List.forall_mem_cons]
    exact ⟨Value.wellFormed_leaf nofun nofun, Value.wellFormed_leaf nofun nofun, nofun⟩
  refine Value.wellFormed_ofValues ?_
  simp only [List.forall_mem_cons]
  exact ⟨hlist, wellFormed_label, Value.wellFormed_leaf nofun nofun,
    Value.wellFormed_leaf nofun nofun, nofun⟩

theorem writable_label : (Value.dict label).Writable := by
  have hencode : label.encode.toOption.isSome = true := by decide +kernel
  cases hbytes : label.encode with
  | error fault =>
    rw [hbytes] at hencode
    cases hencode
  | ok bytes => exact ((Dict.encode_eq_ok_iff wellFormed_label).mp hbytes).1

theorem writable_chestInner {payload : Packed} (hlength : payload.bytes.length ≤ 1000) :
    (Value.dict (chestInner payload)).Writable := by
  have hfits : ∀ text ∈ ["after", "keep", "n", "type", "thing", "wood"],
      Codec.Spelling.LengthFits (Bytes.ofString text).length := by decide +kernel
  simp only [List.forall_mem_cons] at hfits
  obtain ⟨hafter, hkeep, hn, htype, hthing, hwood, -⟩ := hfits
  have hpayload : (Value.packed payload).Writable :=
    (Value.writable_leaf (v := .packed payload) trivial).mpr (hlength.trans_lt (by decide))
  have hlist : (Value.list [.packed payload, .resource wood]).Writable := by
    refine Value.writable_list.mpr ⟨(by decide : 2 < Nat.pow 2 32), ?_⟩
    simp only [List.forall_mem_cons]
    exact ⟨hpayload, (Value.writable_leaf (v := .resource wood) trivial).mpr hwood, nofun⟩
  refine (Value.writable_dict (wellFormed_chestInner payload).root).mpr ?_
  rw [entries_chestInner]
  refine ⟨(by decide : 4 < Nat.pow 2 32), ?_⟩
  simp only [List.forall_mem_cons]
  exact ⟨⟨hafter, hlist⟩, ⟨hkeep, writable_label⟩,
    ⟨hn, (Value.writable_leaf (v := .number .zero) trivial).mpr trivial⟩,
    ⟨htype, (Value.writable_leaf (v := .string "thing") trivial).mpr hthing⟩, nofun⟩

theorem encode_chestInner {payload : Packed} (hlength : payload.bytes.length ≤ 1000) :
    ((chestInner payload).encode.toOption.any fun bytes =>
      decide (bytes.length ≤ 2000)) = true := by
  have hempty : (Codec.dictBytes (chestSpelling [])).length ≤ 1000 := by decide +kernel
  have hbytes : (Codec.dictBytes (chestInner payload).spelling).length ≤ 2000 := by
    rw [spelling_chestInner, length_chestSpelling]
    omega
  rw [(Dict.encode_eq_ok_iff (wellFormed_chestInner payload)).mpr
    ⟨writable_chestInner hlength, rfl⟩, Except.toOption, Option.any_some]
  exact decide_eq_true hbytes

theorem not_within_label (other : Packed) : ¬ (Value.packed other).Within (.dict label) := by
  have hentries : label.entries =
    [("size", .number .zero), ("tags", .dict (Dict.ofValues [("old", .bool true)]))] := rfl
  have htags : (Dict.ofValues [("old", Value.bool true)]).entries = [("old", .bool true)] := rfl
  rintro (_ | ⟨hentry, hin⟩)
  rw [hentries] at hentry
  simp only [List.mem_cons, List.not_mem_nil, or_false] at hentry
  rcases hentry with rfl | rfl
  · cases hin
  · obtain _ | ⟨hentry, hin⟩ := hin
    rw [htags, List.mem_singleton] at hentry
    obtain rfl := hentry
    cases hin

theorem within_chestInner {payload other : Packed}
    (h : (Value.packed other).Within (.dict (chestInner payload))) : other = payload := by
  obtain _ | ⟨hentry, hin⟩ := h
  rw [entries_chestInner] at hentry
  simp only [List.mem_cons, List.not_mem_nil, or_false] at hentry
  rcases hentry with rfl | rfl | rfl | rfl
  · obtain _ | _ | ⟨hitem, hin⟩ := hin
    simp only [List.mem_cons, List.not_mem_nil, or_false] at hitem
    rcases hitem with rfl | rfl
    · cases hin
      rfl
    · cases hin
  · exact absurd hin (not_within_label other)
  · cases hin
  · cases hin

theorem saves_label {s : Store Item} : Saves s (.dict label) (.dict label) := by
  have htags : Saves s (.dict (Dict.ofValues [("old", .bool true)])) _ :=
    .dict [("old", .bool true, .bool true)] rfl (List.forall_mem_singleton.mpr (.leaf trivial))
  refine .dict [("size", .number .zero, .number .zero), ("tags", _, _)] rfl ?_
  simp only [List.forall_mem_cons]
  exact ⟨.leaf trivial, htags, nofun⟩

/-- The chest is saved, and its sprite sheet inside. -/
theorem saves_chest : ∃ payload, Saves chestStore (.object chestRef) (.packed payload) ∧
    (Value.packed payload).Opens := by
  obtain ⟨part, hpart, hopens, hlength⟩ := saves_sheet (s := chestStore) rfl
  have hlist : Saves chestStore (.list [.object (refOf sheet), .resource wood])
      (.list [.packed part, .resource wood]) := by
    refine .list [(.object (refOf sheet), .packed part), (.resource wood, .resource wood)] rfl ?_
    simp only [List.forall_mem_cons]
    exact ⟨hpart, .leaf trivial, nofun⟩
  have hpairs : ∀ pair ∈ [("after", Value.list [.object (refOf sheet), .resource wood],
      Value.list [.packed part, .resource wood]), ("keep", .dict label, .dict label),
      ("n", .number .zero, .number .zero)], Saves chestStore pair.2.1 pair.2.2 := by
    simp only [List.forall_mem_cons]
    exact ⟨hlist, saves_label, .leaf trivial, nofun⟩
  have hdepth : (chestInner part).depth = 5 := rfl
  obtain ⟨payload, hsaves, hopens, -⟩ := exists_packed (chestInner part) 2000
    (rfl : chestStore.object? chestRef = some chest) saveToCache_chest hpairs
    keptMembers_chest rfl
    (encode_chestInner hlength) (by decide) (hdepth.trans_le (by decide))
    fun other hin => within_chestInner hin ▸ hopens
  exact ⟨payload, hsaves, hopens⟩

theorem savable_label {s : Store Item} {levels : Nat} : Savable s levels (.dict label) := by
  have htags : Savable s levels (.dict (Dict.ofValues [("old", .bool true)])) :=
    savable_dict (List.forall_mem_singleton.mpr (savable_leaf trivial))
  refine savable_dict ?_
  show ∀ entry ∈ [("size", Value.number .zero),
    ("tags", .dict (Dict.ofValues [("old", .bool true)]))], Savable s levels entry.2
  simp only [List.forall_mem_cons]
  exact ⟨savable_leaf trivial, htags, nofun⟩

theorem savable_sheet {s : Store Item} (hfound : s.object? (refOf sheet) = some sheet) :
    Savable s 1 (.object (refOf sheet)) := by
  obtain ⟨payload, hsaves, -⟩ := saves_sheet hfound
  refine savable_object hsaves hfound rfl ?_
  show ∀ entry ∈ [("frame_height", Value.number .zero), ("frame_width", .number .zero)],
    Savable s 0 entry.2
  simp only [List.forall_mem_cons]
  exact ⟨savable_leaf trivial, savable_leaf trivial, nofun⟩

theorem savable_chest {payload : Packed}
    (h : Saves chestStore (.object chestRef) (.packed payload)) :
    Savable chestStore 2 (.object chestRef) := by
  refine savable_object h rfl saveToCache_chest ?_
  have hlist : Savable chestStore 1 (.list [.object (refOf sheet), .resource wood]) := by
    refine savable_list ?_
    simp only [List.forall_mem_cons]
    exact ⟨savable_sheet rfl, savable_leaf trivial, nofun⟩
  rw [keptMembers_chest]
  simp only [List.forall_mem_cons]
  exact ⟨hlist, savable_label, savable_leaf trivial, nofun⟩

theorem liveMembers_chest (levels : Nat) :
    liveMembers (revive chestStore Item.registry (levels + 3)) ∅
      [("after", .list [.object (refOf sheet), .resource wood]), ("keep", .dict label),
        ("n", .number .zero), ("type", .string "thing")] =
      .object sheet fun part => .handle "wood" fun link => .done (chestLoaded part link) := rfl

/-- The chest is loaded from its list with the sprite sheet loaded before and the handle of the same
name, from its dictionary, and from its type name. -/
theorem load_saved_chest : ∃ payload,
    (saved.visitWithin 2 (.object chestRef) (Place.root 0)).run bareSetting
      (Progress.initial chestStore) = (.ok (some (.packed payload)), Progress.initial chestStore) ∧
    ObjectClass.saveToCache chest = .ok chestMembers ∧
    (serving (.packed payload)).conversion "it" =
      .object sheet fun part => .handle "wood" fun link =>
        match ObjectClass.loadFromCache (Item.thing .fresh) (chestLoaded part link) with
        | .error failure => .failed failure
        | .ok item => .object item fun answer => .done (.object answer) := by
  obtain ⟨payload, hsaves, hopens⟩ := saves_chest
  have hrun : (saved.visitWithin 2 (.object chestRef) (Place.root 0)).run bareSetting
      (Progress.initial chestStore) =
        (.ok (some (.packed payload)), Progress.initial chestStore) :=
    run_of_savable hsaves (savable_chest hsaves) _ rfl
  have hwf : (Value.object chestRef).WellFormed := Value.wellFormed_leaf nofun nofun
  obtain ⟨hentry, -, hback⟩ := load_saved hrun rfl hwf hopens
  have hserved : ServesFor (serving (.packed payload)) "it" (.packed payload) := .inl rfl
  have hchest : ComesBack chestStore Item.registry := hback Item.registry
  have hload := hchest.object (253 + 3) rfl saveToCache_chest
    (rfl : Item.registry.create? chestRef.typeName = some (.thing .fresh))
  have hmembers : Dict.insertSorted Reserved.type (.string chestRef.typeName)
      (keptMembers chestStore chestMembers) =
        [("after", .list [.object (refOf sheet), .resource wood]), ("keep", .dict label),
          ("n", .number .zero), ("type", .string "thing")] := rfl
  rw [hmembers, liveMembers_chest] at hload
  refine ⟨payload, hrun, saveToCache_chest, (hentry hserved).trans ?_⟩
  -- the levels are split as the members need them
  show revive chestStore Item.registry (253 + 3 + 1) (.object chestRef) = _
  rw [hload]
  refine congrArg (Conversion.object sheet) (funext fun part =>
    congrArg (Conversion.handle "wood") (funext fun link => ?_))
  dsimp only [Conversion.bind]
  cases ObjectClass.loadFromCache (Item.thing .fresh) (chestLoaded part link) <;> rfl

/-! ### A dictionary with a type -/

/-- A dictionary with a text as its type, which is no object. -/
def typed : Dict Value := Dict.ofValues [("type", .string "probe"), ("x", .number .zero)]

/-- A probe that saves this dictionary. -/
def typedProbe : Item := .probe ⟨typed⟩

/-- What the probe saved, with its type name: what it is packed from. -/
def probeInner : Dict Value := Dict.ofValues [("source", .dict typed), ("type", .string "probe")]

theorem not_within_probeInner (payload : Packed) :
    ¬ (Value.packed payload).Within (.dict probeInner) := by
  have hentries : probeInner.entries = [("source", .dict typed), ("type", .string "probe")] := rfl
  have htyped : typed.entries = [("type", .string "probe"), ("x", .number .zero)] := rfl
  rintro (_ | ⟨hentry, hin⟩)
  rw [hentries] at hentry
  simp only [List.mem_cons, List.not_mem_nil, or_false] at hentry
  rcases hentry with rfl | rfl
  · obtain _ | ⟨hmember, hin⟩ := hin
    rw [htyped] at hmember
    simp only [List.mem_cons, List.not_mem_nil, or_false] at hmember
    rcases hmember with rfl | rfl <;> cases hin
  · cases hin

theorem exists_saved_probe : ∃ payload q, visitOf typedProbe = (.ok (some (.packed payload)), q) ∧
    q.errors.size = (Progress.initial (storeOf typedProbe)).errors.size ∧
    Saves (storeOf typedProbe) (.object (refOf typedProbe)) (.packed payload) ∧
    (Value.packed payload).Opens := by
  have hmembers : ∀ pair ∈ [("type", Value.string "probe", Value.string "probe"),
      ("x", .number .zero, .number .zero)], Saves (storeOf typedProbe) pair.2.1 pair.2.2 := by
    simp only [List.forall_mem_cons]
    exact ⟨.leaf trivial, .leaf trivial, nofun⟩
  have hpairs : ∀ pair ∈ [("source", Value.dict typed, Value.dict typed)],
      Saves (storeOf typedProbe) pair.2.1 pair.2.2 := by
    simp only [List.forall_mem_cons]
    exact ⟨.dict _ rfl hmembers, nofun⟩
  have hfound : (storeOf typedProbe).object? (refOf typedProbe) = some typedProbe := rfl
  obtain ⟨payload, hsaves, hopens, -⟩ := exists_packed probeInner 100 hfound rfl hpairs rfl rfl
    (by decide +kernel) (by decide) (by decide +kernel)
    fun other hin => absurd hin (not_within_probeInner other)
  have hsource : Savable (storeOf typedProbe) 0 (.dict typed) := by
    refine savable_dict ?_
    show ∀ entry ∈ [("type", Value.string "probe"), ("x", .number .zero)],
      Savable (storeOf typedProbe) 0 entry.2
    simp only [List.forall_mem_cons]
    exact ⟨savable_leaf trivial, savable_leaf trivial, nofun⟩
  have hsavable : Savable (storeOf typedProbe) 1 (.object (refOf typedProbe)) :=
    savable_object hsaves hfound rfl (List.forall_mem_singleton.mpr hsource)
  exact ⟨payload, _, run_of_savable hsaves hsavable _ rfl, rfl, hsaves, hopens⟩

/-- The probe is not loaded from the dictionary that it saved: an object stands in it. -/
theorem not_loaded_typed : ∃ payload q,
    visitOf typedProbe = (.ok (some (.packed payload)), q) ∧
    ObjectClass.saveToCache typedProbe = .ok (Dict.ofValues [("source", .dict typed)]) ∧
    (serving (.packed payload)).conversion "it" ≠
      match ObjectClass.loadFromCache (Item.probe .fresh) probeInner with
      | .error failure => .failed failure
      | .ok item => .object item fun answer => .done (.object answer) := by
  obtain ⟨payload, q, hrun, -, hsaves, hopens⟩ := exists_saved_probe
  refine ⟨payload, q, hrun, rfl, fun heq => ?_⟩
  have hload := (loadsAs_of_saves hsaves hopens).entry
    (.inl rfl : ServesFor (serving (.packed payload)) "it" (.packed payload))
  have hfirst : ∃ next, revive (storeOf typedProbe) Item.registry (depthLimit + 1)
      (.object (refOf typedProbe)) = .object (.probe ⟨typed⟩) next := ⟨_, rfl⟩
  obtain ⟨next, hfirst⟩ := hfirst
  have hsame := hfirst.symm.trans (hload.symm.trans heq)
  have hitem : Item.probe ⟨typed⟩ = .probe ⟨probeInner⟩ := (Conversion.object.inj hsame).1
  have hdict : typed = probeInner := congrArg Probe.source (Item.probe.inj hitem)
  have hx : typed.contains "x" = false := by
    rw [hdict]
    rfl
  cases hx

end Compile

end ResourceTree
