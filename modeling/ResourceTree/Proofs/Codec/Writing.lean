import ResourceTree.Proofs.Codec.Spelling

/-!
# Writing — when a value has an encoded form, and which

* `Writes`: a part succeeds under one condition and with one result;
* `Writes.bind`, `writes_join`: parts one after another;
* **`writes_encodeValue`**, **`Dict.encode_eq_ok_iff`**: a dictionary has an encoded form exactly
  when it holds no live object and every length fits, and it is the octets of its spelling.
-/

namespace ResourceTree

open Codec (Spelling)

namespace Value

open Codec.Spelling (LengthFits)

/-- The value has an encoded form. -/
def Writable (v : Value) : Prop := v.Lifeless ∧ v.spelling.Fits

theorem writable_dict {d : Dict Value} (h : d.WellFormed) :
    Writable (.dict d) ↔ LengthFits d.entries.length ∧
      ∀ entry ∈ d.entries, LengthFits (Bytes.ofString entry.1).length ∧ entry.2.Writable := by
  have hperm : (Dict.inKeyOrder d.entries).Perm d.entries := Dict.inKeyOrder_perm h.nodup
  rw [Writable, lifeless_dict, spelling_dict, Spelling.fits_dict, Dict.spelling, List.length_map,
    hperm.length_eq]
  simp only [List.forall_mem_map, hperm.mem_iff, Prod.map_fst, Prod.map_snd, id, Writable,
    forall_and]
  tauto

theorem writable_list {items : List Value} :
    Writable (.list items) ↔ LengthFits items.length ∧ ∀ item ∈ items, item.Writable := by
  rw [Writable, lifeless_list, spelling_list, Spelling.fits_list, List.length_map]
  simp only [List.forall_mem_map, Writable, forall_and]
  tauto

/-- A value without parts that is no live object. -/
def IsLeaf : Value → Prop
  | .dict _ | .list _ | .object _ => False
  | _ => True

theorem writable_leaf {v : Value} (h : v.IsLeaf) : v.Writable ↔ v.spelling.FitsHere := by
  have hlife : v.Lifeless := fun ref hw => by
    cases hw <;> exact h
  refine (and_iff_right hlife).trans (Spelling.fits_leaf ?_)
  cases v <;> trivial

end Value

namespace Codec

open Spelling (LengthFits)

variable {x : Except EncodeFault Bytes} {p q : Prop} {bytes more : Bytes}

/-- The part succeeds exactly when `p` holds, with the given octets. -/
def Writes (x : Except EncodeFault Bytes) (p : Prop) (bytes : Bytes) : Prop :=
  ∀ b, x = .ok b ↔ p ∧ b = bytes

theorem writes_pure (bytes : Bytes) : Writes (pure bytes) True bytes := fun b => by
  simp [pure, Except.pure, eq_comm]

theorem Writes.bind {k : Bytes → Except EncodeFault Bytes} (hx : Writes x p bytes)
    (hk : Writes (k bytes) q more) : Writes (x >>= k) (p ∧ q) more := by
  intro b
  cases x with
  | error fault =>
    have hp : ¬ p := fun hp => nomatch (hx bytes).mpr ⟨hp, rfl⟩
    exact ⟨fun h => (nomatch h), fun h => absurd h.1.1 hp⟩
  | ok a =>
    obtain ⟨hp, rfl⟩ := (hx a).mp rfl
    exact (hk b).trans (by simp [hp])

theorem Writes.of_iff (hx : Writes x p bytes) (h : p ↔ q) : Writes x q bytes := fun b =>
  (hx b).trans (and_congr_left' h)

theorem Writes.then {k : Bytes → Bytes} (hx : Writes x p bytes) :
    Writes (do return k (← x)) p (k bytes) :=
  (hx.bind (writes_pure (k bytes))).of_iff (iff_of_eq (and_true p))

theorem Writes.map {k : Bytes → Bytes} (hx : Writes x p bytes) : Writes (k <$> x) p (k bytes) := by
  have h : k <$> x = do return k (← x) := by cases x <;> rfl
  rw [h]
  exact hx.then

theorem Writes.both {y : Except EncodeFault Bytes} {k : Bytes → Bytes → Bytes}
    (hx : Writes x p bytes) (hy : Writes y q more) :
    Writes (do return k (← x) (← y)) (p ∧ q) (k bytes more) :=
  hx.bind hy.then

theorem writes_encodeLength (n : Nat) :
    Writes (encodeLength n) (LengthFits n) (Bytes.ofNat 4 n) := by
  intro b
  unfold encodeLength LengthFits
  split_ifs with h <;> simp [h, eq_comm]

theorem writes_encodeBytes (bytes : Bytes) :
    Writes (encodeBytes bytes) (LengthFits bytes.length) (counted bytes) :=
  (writes_encodeLength bytes.length).then

/-- **A run of parts** succeeds when every part does. -/
theorem writes_join {α : Type} {l : List α} {f : α → Except EncodeFault Bytes} {p : α → Prop}
    {g : α → Bytes} (h : ∀ a ∈ l, Writes (f a) (p a) (g a)) :
    Writes (join (l.map f)) (∀ a ∈ l, p a) (l.flatMap g) := by
  induction l with
  | nil => exact (writes_pure []).of_iff (by simp)
  | cons a rest ih =>
    obtain ⟨ha, hrest⟩ := List.forall_mem_cons.mp h
    exact (ha.both (ih hrest)).of_iff List.forall_mem_cons.symm

theorem encodeMembers_eq (entries : List (String × Value)) :
    encodeMembers entries = entries.map (Prod.map id encodeValue) := by
  induction entries with
  | nil => rfl
  | cons entry rest ih => simp [encodeMembers, ih, Prod.map]

theorem encodeItems_eq (items : List Value) : encodeItems items = items.map encodeValue := by
  induction items with
  | nil => rfl
  | cons item rest ih => simp [encodeItems, ih]

/-! ## Values and dictionaries -/

/-- A dictionary is written once its members are: the count, and the members in key order. -/
theorem writes_assemble {d : Dict Value} (hd : d.WellFormed)
    (h : ∀ entry ∈ d.entries,
      Writes (encodeValue entry.2) entry.2.Writable entry.2.spelling.bytes) :
    Writes (assemble (encodeMembers d.entries)) (Value.dict d).Writable (dictBytes d.spelling) := by
  have hperm : (Dict.inKeyOrder d.entries).Perm d.entries := Dict.inKeyOrder_perm hd.nodup
  have hmember : ∀ entry ∈ Dict.inKeyOrder d.entries,
      Writes (do return (← encodeBytes (Bytes.ofString entry.1)) ++ (← encodeValue entry.2))
        (LengthFits (Bytes.ofString entry.1).length ∧ entry.2.Writable)
        (memberBytes (Prod.map id Value.spelling entry)) := fun entry hentry =>
    (writes_encodeBytes _).both (h entry (hperm.mem_iff.mp hentry))
  have hparts : assemble (encodeMembers d.entries) = do
      let count ← encodeLength d.entries.length
      return count ++ (← join ((Dict.inKeyOrder d.entries).map fun entry => do
        return (← encodeBytes (Bytes.ofString entry.1)) ++ (← encodeValue entry.2))) := by
    rw [encodeMembers_eq, assemble, Dict.inKeyOrder_map, List.length_map, List.map_map]
    rfl
  have hbytes : dictBytes d.spelling = Bytes.ofNat 4 d.entries.length ++
      (Dict.inKeyOrder d.entries).flatMap fun entry =>
        memberBytes (Prod.map id Value.spelling entry) := by
    rw [dictBytes, membersBytes_eq, Dict.spelling, List.length_map, hperm.length_eq,
      List.flatMap_map]
  rw [hparts, hbytes]
  refine ((writes_encodeLength _).both (writes_join hmember)).of_iff ?_
  simp only [Value.writable_dict hd, hperm.mem_iff]

/-- **What is written for a value.** -/
theorem writes_encodeValue {v : Value} (h : v.WellFormed) :
    Writes (encodeValue v) v.Writable v.spelling.bytes := by
  induction v using Value.induct with
  | null => exact (writes_pure [0]).of_iff (Value.writable_leaf (v := .null) trivial).symm
  | bool b => exact (writes_pure _).of_iff (Value.writable_leaf (v := .bool b) trivial).symm
  | number n => exact (writes_pure _).of_iff (Value.writable_leaf (v := .number n) trivial).symm
  | string s =>
    exact (writes_encodeBytes _).map.of_iff (Value.writable_leaf (v := .string s) trivial).symm
  | binary bytes =>
    exact (writes_encodeBytes _).map.of_iff (Value.writable_leaf (v := .binary bytes) trivial).symm
  | dict d ih =>
    rw [Value.spelling_dict]
    exact (writes_assemble h.root fun entry hentry => ih entry hentry (h.member hentry)).map
  | list items ih =>
    have hitems := writes_join fun item hitem => ih item hitem (h.item hitem)
    have hbytes : (Value.list items).spelling.bytes = 6 ::
        (Bytes.ofNat 4 items.length ++ items.flatMap fun item => item.spelling.bytes) := by
      rw [Value.spelling_list, Spelling.bytes, itemsBytes_eq, List.length_map, List.flatMap_map]
    rw [hbytes, encodeValue, encodeItems_eq]
    exact ((writes_encodeLength _).both hitems).of_iff Value.writable_list.symm
  | object ref =>
    have hdead : ¬ (Value.object ref).Writable := fun h => Value.not_lifeless_object h.1
    refine fun b => ⟨fun h => ?_, fun h => absurd h.1 hdead⟩
    cases h
  | packed payload =>
    exact (writes_encodeBytes _).map.of_iff
      (Value.writable_leaf (v := .packed payload) trivial).symm
  | resource handle =>
    exact (writes_encodeBytes _).map.of_iff
      (Value.writable_leaf (v := .resource handle) trivial).symm

end Codec

/-- **When a dictionary has an encoded form, and which.** -/
theorem Dict.encode_eq_ok_iff {d : Dict Value} (h : (Value.dict d).WellFormed) {b : Bytes} :
    d.encode = .ok b ↔ (Value.dict d).Writable ∧ b = Codec.dictBytes d.spelling :=
  Codec.writes_assemble h.root (fun _ hentry => Codec.writes_encodeValue (h.member hentry)) b

end ResourceTree
