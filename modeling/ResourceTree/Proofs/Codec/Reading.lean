import ResourceTree.Codec.Decode
import ResourceTree.Proofs.Codec.Spelling

/-!
# Reading — which octets decode, and as what

* `Reads`: a step takes given octets and nothing more, or stops because they lie too deep;
* **`reads_decodeValue`**, `reads_decodeDict`: a spelling that fits is read as the value it
  spells, when it is not deeper than the levels that are left;
* `Gives`: whatever a step gives, the octets it took are as stated;
* **`gives_decode`**: whatever is read was spelled;
* **`Dict.decode_eq_ok_iff`**, `Dict.decode_dictBytes_of_deep`.
-/

namespace ResourceTree

namespace Bytes

theorem ofNat_toNat (bytes : Bytes) : ofNat bytes.length (toNat bytes) = bytes := by
  induction bytes with
  | nil => rfl
  | cons b bs ih =>
    have hdiv : (b.toNat + 256 * toNat bs) / 256 = toNat bs := by
      have := b.toNat_lt
      omega
    have hlow : UInt8.ofNat (b.toNat + 256 * toNat bs) = b := by
      rw [← UInt8.toNat_inj, UInt8.toNat_ofNat']
      have := b.toNat_lt
      omega
    rw [List.length_cons, toNat, ofNat, hdiv, ih, hlow]

theorem toNat_lt (bytes : Bytes) : toNat bytes < Nat.pow 256 bytes.length := by
  induction bytes with
  | nil => exact Nat.one_pos
  | cons b bs ih =>
    have := b.toNat_lt
    have hpow : Nat.pow 256 (bs.length + 1) = 256 * Nat.pow 256 bs.length := Nat.mul_comm _ _
    rw [toNat, List.length_cons, hpow]
    omega

theorem ofString_of_toString?_eq_some {bytes : Bytes} {s : String} (h : toString? bytes = some s) :
    bytes = ofString s := by
  unfold toString? String.fromUTF8? at h
  split at h
  · rw [← Option.some.inj h]
    simp [ofString, String.fromUTF8]
  · cases h

end Bytes

namespace Codec

open Spelling (LengthFits)

variable {α β : Type} {r : Reader α} {k : α → Reader β} {a : α} {b : β} {p q : Prop}
  {bytes more : Bytes}

/-- Something lies deeper than the format allows. -/
def TooDeep (fault : DecodeFault) : Prop := fault = .dictTooDeep ∨ fault = .valueTooDeep

/-! ## Steps on octets that are given -/

/-- At the given octets the step takes all of them and gives `a` when `p` holds, and else stops
because they lie too deep; what follows them does not matter. -/
def Reads (r : Reader α) (bytes : Bytes) (p : Prop) (a : α) : Prop :=
  ∀ n rest, (p → r ⟨n, bytes ++ rest⟩ = .ok (a, ⟨n + bytes.length, rest⟩)) ∧
    (¬ p → ∃ fault, TooDeep fault ∧ r ⟨n, bytes ++ rest⟩ = .error fault)

theorem bind_apply (r : Reader α) (k : α → Reader β) (input : Input) :
    (r >>= k) input = match r input with
      | .ok (a, input') => k a input'
      | .error fault => .error fault := by
  change (r input >>= fun x => k x.1 x.2) = _
  cases r input <;> rfl

theorem reads_pure (a : α) : Reads (pure a) [] True a := fun _ _ =>
  ⟨fun _ => rfl, fun h => absurd trivial h⟩

theorem Reads.bind (hr : Reads r bytes p a) (hk : Reads (k a) more q b) :
    Reads (r >>= k) (bytes ++ more) (p ∧ q) b := by
  intro n rest
  obtain ⟨hok, hdeep⟩ := hr n (more ++ rest)
  rw [bind_apply, List.append_assoc]
  by_cases hp : p
  · obtain ⟨hok', hdeep'⟩ := hk (n + bytes.length) rest
    rw [hok hp]
    refine ⟨fun h => ?_, fun h => hdeep' fun hq => h ⟨hp, hq⟩⟩
    rw [List.length_append, ← Nat.add_assoc]
    exact hok' h.2
  · obtain ⟨fault, hfault, heq⟩ := hdeep hp
    rw [heq]
    exact ⟨fun h => absurd h.1 hp, fun _ => ⟨fault, hfault, rfl⟩⟩

theorem Reads.of_iff (hr : Reads r bytes p a) (h : p ↔ q) : Reads r bytes q a := by
  rwa [← propext h]

theorem Reads.then (hr : Reads r bytes True a) (hk : Reads (k a) more q b) :
    Reads (r >>= k) (bytes ++ more) q b := (hr.bind hk).of_iff (iff_of_eq (true_and q))

theorem Reads.last (hr : Reads r bytes p a) (hk : Reads (k a) [] True b) :
    Reads (r >>= k) bytes p b := by
  have h := hr.bind hk
  rw [List.append_nil] at h
  exact h.of_iff (iff_of_eq (and_true p))

theorem Reads.map {f : α → β} (hr : Reads r bytes p a) :
    Reads (do return f (← r)) bytes p (f a) := hr.last (reads_pure (f a))

theorem Reads.at {k : Nat → Reader α} (h : ∀ n, Reads (k n) bytes p a) :
    Reads (position >>= k) bytes p a := fun n rest => h n n rest

theorem reads_fail {fault : DecodeFault} (h : TooDeep fault) : Reads (fail fault) bytes False a :=
  fun _ _ => ⟨False.elim, fun _ => ⟨fault, h, rfl⟩⟩

theorem reads_take (bytes : Bytes) : Reads (take bytes.length) bytes True bytes := by
  refine fun n rest => ⟨fun _ => ?_, fun h => absurd trivial h⟩
  have h : Bytes.split? bytes.length (bytes ++ rest) = some (bytes, rest) :=
    Bytes.split?_eq_some_iff.mpr ⟨rfl, rfl⟩
  simp only [take, h]

theorem reads_takeWord {w n : Nat} (h : n < Nat.pow 256 w) :
    Reads (takeWord w) (Bytes.ofNat w n) True n := by
  have htake := reads_take (Bytes.ofNat w n)
  rw [Bytes.length_ofNat] at htake
  have := htake.map (f := Bytes.toNat)
  rwa [Bytes.toNat_ofNat, Nat.mod_eq_of_lt h] at this

theorem reads_takeOctet (octet : UInt8) : Reads (takeWord 1) [octet] True octet.toNat := by
  have h := reads_takeWord (w := 1) octet.toNat_lt
  rwa [Bytes.ofNat, Bytes.ofNat, UInt8.ofNat_toNat] at h

theorem reads_takeBytes (h : LengthFits bytes.length) :
    Reads takeBytes (counted bytes) True bytes := (reads_takeWord h).then (reads_take bytes)

theorem reads_takeText {s : String} (h : LengthFits (Bytes.ofString s).length) :
    Reads takeText (counted (Bytes.ofString s)) True s := by
  unfold takeText
  refine Reads.at fun start => (reads_takeBytes h).last ?_
  rw [Bytes.toString?_ofString]
  exact reads_pure s

/-! ## Spellings are read -/

theorem reads_takeMembers {value : Reader Value} {members : List (String × Spelling)}
    (ok : Spelling → Prop)
    (h : ∀ member ∈ members, LengthFits (Bytes.ofString member.1).length ∧
      Reads value member.2.bytes (ok member.2) member.2.value) (d : Dict Value) :
    Reads (takeMembers value members.length d) (membersBytes members)
      (∀ member ∈ members, ok member.2) (d.extend (membersValue members)) := by
  induction members generalizing d with
  | nil => exact (reads_pure d).of_iff (by simp)
  | cons member rest ih =>
    obtain ⟨⟨hname, hvalue⟩, hrest⟩ := List.forall_mem_cons.mp h
    rw [membersBytes, List.append_assoc]
    refine ((reads_takeText hname).then (hvalue.bind ?_)).of_iff List.forall_mem_cons.symm
    exact ih hrest (d.set member.1 member.2.value)

theorem reads_takeItems {value : Reader Value} {items : List Spelling} (ok : Spelling → Prop)
    (h : ∀ item ∈ items, Reads value item.bytes (ok item) item.value) (done : List Value) :
    Reads (takeItems value items.length done) (itemsBytes items) (∀ item ∈ items, ok item)
      ((items.map Spelling.value).reverse ++ done) := by
  induction items generalizing done with
  | nil => exact (reads_pure done).of_iff (by simp)
  | cons item rest ih =>
    obtain ⟨hvalue, hrest⟩ := List.forall_mem_cons.mp h
    have hdone : ((item :: rest).map Spelling.value).reverse ++ done =
        (rest.map Spelling.value).reverse ++ item.value :: done := by simp
    rw [hdone]
    exact (hvalue.bind (ih hrest (item.value :: done))).of_iff List.forall_mem_cons.symm

/-- A dictionary is read once its members are. -/
theorem reads_decodeDict {members : List (String × Spelling)} (hl : LengthFits members.length)
    (h : ∀ member ∈ members, LengthFits (Bytes.ofString member.1).length ∧ ∀ levels,
      Reads (decodeValue levels) member.2.bytes (member.2.depth < levels) member.2.value)
    (levels : Nat) :
    Reads (decodeDict levels) (dictBytes members) (membersDepth members < levels)
      (dictValue members) := by
  cases levels with
  | zero => exact (reads_fail (.inl rfl)).of_iff (by simp)
  | succ levels =>
    rw [decodeDict]
    refine ((reads_takeWord hl).then (reads_takeMembers (·.depth < levels)
      (fun member hm => ⟨(h member hm).1, (h member hm).2 levels⟩) ∅)).of_iff ?_
    rw [Nat.lt_succ_iff, membersDepth_le]
    rfl

/-- A value is read as its tag says. -/
theorem Reads.tagged {tag : UInt8} {k : Nat → Nat → Reader α}
    (hk : ∀ start, Reads (k start tag.toNat) bytes p a) :
    Reads (do k (← position) (← takeWord 1)) (tag :: bytes) p a :=
  Reads.at fun start => (reads_takeOctet tag).then (hk start)

/-- **A spelling that fits is read as the value it spells**, unless it is too deep. -/
theorem reads_decodeValue {s : Spelling} (h : s.Fits) (levels : Nat) :
    Reads (decodeValue levels) s.bytes (s.depth < levels) s.value := by
  induction s using Spelling.induct generalizing levels
  all_goals
    obtain _ | levels := levels
    · exact (reads_fail (.inr rfl)).of_iff (iff_of_false id (Nat.not_lt_zero _))
    rw [decodeValue]
    refine Reads.tagged fun start => ?_
  case null => exact (reads_pure Value.null).of_iff (iff_of_true trivial levels.succ_pos)
  case bool octet =>
    have hvalue : (Spelling.bool octet).value = .bool (octet.toNat ≠ 0) := by
      simp only [Spelling.value, ne_eq, ← UInt8.toNat_inj, UInt8.toNat_zero]
    rw [hvalue]
    exact (reads_takeOctet octet).map.of_iff (iff_of_true trivial levels.succ_pos)
  case number bits =>
    have hbits : Reads (takeWord 8) (Bytes.ofNat 8 bits.toNat) True bits.toNat :=
      reads_takeWord bits.toNat_lt
    have hvalue : (Spelling.number bits).value = .number ⟨UInt64.ofNat bits.toNat⟩ := by
      rw [UInt64.ofNat_toNat, Spelling.value]
    rw [hvalue]
    exact hbits.map.of_iff (iff_of_true trivial levels.succ_pos)
  case string s =>
    exact (reads_takeText (h _ .self)).map.of_iff (iff_of_true trivial levels.succ_pos)
  case binary bytes =>
    exact (reads_takeBytes (h _ .self)).map.of_iff (iff_of_true trivial levels.succ_pos)
  case dict members ih =>
    obtain ⟨hl, hmember⟩ := Spelling.fits_dict.mp h
    exact (reads_decodeDict hl (fun member hm => ⟨(hmember member hm).1, fun levels =>
      ih member hm (hmember member hm).2 levels⟩) levels).map.of_iff Nat.succ_lt_succ_iff.symm
  case list items ih =>
    obtain ⟨hl, hitem⟩ := Spelling.fits_list.mp h
    have hitems : Reads (do return .list (← takeItems (decodeValue levels) items.length []).reverse)
        (itemsBytes items) (∀ item ∈ items, item.depth < levels) (Spelling.list items).value := by
      have hvalue : (Spelling.list items).value =
          .list ((items.map Spelling.value).reverse ++ []).reverse := by
        rw [Spelling.value, itemsValue_eq, List.append_nil, List.reverse_reverse]
      rw [hvalue]
      exact (reads_takeItems (·.depth < levels)
        (fun item hi => ih item hi (hitem item hi) levels) []).map
    refine ((reads_takeWord hl).then hitems).of_iff ?_
    rw [Spelling.depth, Nat.lt_succ_iff, itemsDepth_le]
    rfl
  case packed bytes =>
    exact (reads_takeBytes (h _ .self)).map.of_iff (iff_of_true trivial levels.succ_pos)
  case resource name =>
    exact (reads_takeText (h _ .self)).map.of_iff (iff_of_true trivial levels.succ_pos)

/-! ## Whatever is read was spelled -/

/-- Whatever the step gives, the octets that it took and its result are as stated. -/
def Gives (r : Reader α) (spelled : Bytes → α → Prop) : Prop :=
  ∀ input a input', r input = .ok (a, input') →
    ∃ bytes, input.rest = bytes ++ input'.rest ∧ spelled bytes a

variable {f : Bytes → α → Prop} {g : Bytes → β → Prop}

theorem gives_pure (a : α) : Gives (pure a) fun bytes b => bytes = [] ∧ b = a := by
  rintro input b input' h
  obtain ⟨rfl, rfl⟩ := Prod.mk.inj (Except.ok.inj h)
  exact ⟨[], rfl, rfl, rfl⟩

theorem gives_fail (fault : DecodeFault) : Gives (fail fault : Reader α) f :=
  fun _ _ _ h => nomatch h

theorem Gives.bind (hr : Gives r f)
    (hk : ∀ a bytes, f bytes a → Gives (k a) fun more b => g (bytes ++ more) b) :
    Gives (r >>= k) g := by
  intro input b input' h
  rw [bind_apply] at h
  cases hri : r input with
  | error fault => rw [hri] at h; cases h
  | ok result =>
    obtain ⟨a, mid⟩ := result
    rw [hri] at h
    obtain ⟨bytes, hbytes, hf⟩ := hr input a mid hri
    obtain ⟨more, hmore, hg⟩ := hk a bytes hf mid b input' h
    exact ⟨bytes ++ more, by rw [hbytes, hmore, List.append_assoc], hg⟩

theorem Gives.mono (hr : Gives r f) {f' : Bytes → α → Prop}
    (h : ∀ bytes a, f bytes a → f' bytes a) :
    Gives r f' := fun input a input' heq =>
  let ⟨bytes, hbytes, hf⟩ := hr input a input' heq
  ⟨bytes, hbytes, h bytes a hf⟩

theorem Gives.map {m : α → β} (hr : Gives r f) (h : ∀ bytes a, f bytes a → g bytes (m a)) :
    Gives (do return m (← r)) g :=
  hr.bind fun a bytes ha => (gives_pure (m a)).mono fun more b hb => by
    obtain ⟨rfl, rfl⟩ := hb
    rw [List.append_nil]
    exact h bytes a ha

theorem Gives.at {k : Nat → Reader α} (h : ∀ n, Gives (k n) f) : Gives (position >>= k) f :=
  fun input a input' heq => h input.taken input a input' heq

theorem gives_take (n : Nat) : Gives (take n) fun bytes a => bytes = a ∧ a.length = n := by
  intro input a input' h
  unfold take at h
  split at h
  · next first rest hs =>
    obtain ⟨rfl, rfl⟩ := Prod.mk.inj (Except.ok.inj h)
    obtain ⟨hrest, hlen⟩ := Bytes.split?_eq_some_iff.mp hs
    exact ⟨first, hrest.symm, rfl, hlen⟩
  · cases h

theorem gives_takeWord (w : Nat) :
    Gives (takeWord w) fun bytes n => bytes = Bytes.ofNat w n ∧ n < Nat.pow 256 w :=
  (gives_take w).map (m := Bytes.toNat) fun bytes a ⟨hbytes, hlen⟩ => by
    subst hbytes hlen
    exact ⟨(Bytes.ofNat_toNat bytes).symm, Bytes.toNat_lt bytes⟩

theorem gives_takeBytes :
    Gives takeBytes fun bytes a => bytes = counted a ∧ LengthFits a.length :=
  (gives_takeWord 4).bind fun n word ⟨hword, hn⟩ =>
    (gives_take n).mono fun bytes a ⟨hbytes, hlen⟩ => by
    subst hbytes hlen hword
    exact ⟨rfl, hn⟩

theorem gives_takeText : Gives takeText fun bytes s =>
    bytes = counted (Bytes.ofString s) ∧ LengthFits (Bytes.ofString s).length :=
  Gives.at fun start => gives_takeBytes.bind fun bytes all ⟨hall, hfits⟩ => by
    cases hs : bytes.toString? with
    | none => exact gives_fail _
    | some s =>
      refine (gives_pure s).mono fun more t ⟨hmore, ht⟩ => ?_
      subst hmore ht hall
      rw [List.append_nil, ← Bytes.ofString_of_toString?_eq_some hs]
      exact ⟨rfl, hfits⟩

/-- What a step that reads a value gives was spelled, within the given bounds. -/
def GivesSpelled (value : Reader Value) (p : Spelling → Prop) : Prop :=
  Gives value fun bytes v => ∃ s, p s ∧ bytes = s.bytes ∧ v = s.value

theorem gives_takeMembers {value : Reader Value} {p : Spelling → Prop}
    (h : GivesSpelled value p) (count : Nat) (d : Dict Value) :
    Gives (takeMembers value count d) fun bytes d' => ∃ members : List (String × Spelling),
      members.length = count ∧
      (∀ member ∈ members, LengthFits (Bytes.ofString member.1).length ∧ p member.2) ∧
      bytes = membersBytes members ∧ d' = d.extend (membersValue members) := by
  induction count generalizing d with
  | zero =>
    exact (gives_pure d).mono fun bytes d' ⟨hb, hd⟩ => ⟨[], rfl, nofun, hb, hd⟩
  | succ count ih =>
    refine gives_takeText.bind fun name nameBytes ⟨hname, hfits⟩ =>
      h.bind fun v valueBytes ⟨s, hs, hvalue, hv⟩ => (ih (d.set name v)).mono ?_
    rintro bytes d' ⟨members, hlen, hmembers, rfl, rfl⟩
    subst hname hvalue hv
    refine ⟨(name, s) :: members, congrArg (· + 1) hlen,
      List.forall_mem_cons.mpr ⟨⟨hfits, hs⟩, hmembers⟩, ?_, rfl⟩
    rw [membersBytes, List.append_assoc]

theorem gives_takeItems {value : Reader Value} {p : Spelling → Prop} (h : GivesSpelled value p)
    (count : Nat) (done : List Value) :
    Gives (takeItems value count done) fun bytes all => ∃ items : List Spelling,
      items.length = count ∧ (∀ item ∈ items, p item) ∧
      bytes = itemsBytes items ∧ all = (items.map Spelling.value).reverse ++ done := by
  induction count generalizing done with
  | zero =>
    exact (gives_pure done).mono fun bytes all ⟨hb, ha⟩ => ⟨[], rfl, nofun, hb, ha⟩
  | succ count ih =>
    refine h.bind fun v valueBytes ⟨s, hs, hvalue, hv⟩ => (ih (v :: done)).mono ?_
    rintro bytes all ⟨items, hlen, hitems, rfl, rfl⟩
    subst hvalue hv
    refine ⟨s :: items, congrArg (· + 1) hlen, List.forall_mem_cons.mpr ⟨hs, hitems⟩, rfl, ?_⟩
    simp

/-- What is read within so many levels. -/
def Readable (levels : Nat) (s : Spelling) : Prop := s.Fits ∧ s.depth < levels

theorem gives_decodeDict {levels : Nat}
    (h : ∀ n < levels, GivesSpelled (decodeValue n) (Readable n)) :
    Gives (decodeDict levels) fun bytes d => ∃ members, (Spelling.dict members).Fits ∧
      membersDepth members < levels ∧ bytes = dictBytes members ∧
      d = dictValue members := by
  cases levels with
  | zero => exact gives_fail _
  | succ levels =>
    rw [decodeDict]
    refine (gives_takeWord 4).bind fun count word ⟨hword, hcount⟩ =>
      (gives_takeMembers (h levels levels.lt_succ_self) count ∅).mono ?_
    rintro bytes d ⟨members, rfl, hmembers, rfl, rfl⟩
    refine ⟨members,
      Spelling.fits_dict.mpr ⟨hcount, fun m hm => ⟨(hmembers m hm).1, (hmembers m hm).2.1⟩⟩,
      ?_, by rw [hword, dictBytes], rfl⟩
    exact Nat.lt_succ_iff.mpr (membersDepth_le.mpr fun m hm => (hmembers m hm).2.2)

theorem readable_leaf {s : Spelling} (hs : s.IsLeaf) (h : s.FitsHere) (levels : Nat) :
    Readable (levels + 1) s := by
  refine ⟨(Spelling.fits_leaf hs).mpr h, ?_⟩
  cases s <;> first | exact levels.succ_pos | exact absurd hs id

/-- **Whatever is read as a value was spelled.** -/
theorem gives_decodeValue (levels : Nat) : GivesSpelled (decodeValue levels) (Readable levels) := by
  induction levels using Nat.strong_induction_on with
  | _ levels ih =>
  obtain _ | levels := levels
  · exact gives_fail _
  rw [GivesSpelled, decodeValue]
  refine Gives.at fun start => (gives_takeWord 1).bind ?_
  rintro tag word ⟨hword, -⟩
  cases hkind : Kind.ofTag? tag with
  | none => exact gives_fail _
  | some kind =>
    obtain rfl := Kind.ofTag?_eq_some_iff.mp hkind
    subst hword
    cases kind with
    | null =>
      refine (gives_pure Value.null).mono ?_
      rintro bytes v ⟨rfl, rfl⟩
      exact ⟨.null, readable_leaf (s := .null) trivial trivial levels, rfl, rfl⟩
    | bool =>
      refine (gives_takeWord 1).map ?_
      rintro bytes n ⟨rfl, hn⟩
      refine ⟨.bool (UInt8.ofNat n),
        readable_leaf (s := .bool (UInt8.ofNat n)) trivial trivial levels,
        rfl, ?_⟩
      simp only [Spelling.value, ne_eq, ← UInt8.toNat_inj, UInt8.toNat_zero,
        UInt8.toNat_ofNat_of_lt' hn]
    | number =>
      refine (gives_takeWord 8).map ?_
      rintro bytes n ⟨rfl, hn⟩
      refine ⟨.number (UInt64.ofNat n),
        readable_leaf (s := .number (UInt64.ofNat n)) trivial trivial levels,
        ?_, rfl⟩
      rw [Spelling.bytes, UInt64.toNat_ofNat_of_lt' hn]
      rfl
    | string =>
      refine gives_takeText.map ?_
      rintro bytes s ⟨rfl, hs⟩
      exact ⟨.string s, readable_leaf (s := .string s) trivial hs levels, rfl, rfl⟩
    | binary =>
      refine gives_takeBytes.map ?_
      rintro bytes payload ⟨rfl, hs⟩
      exact ⟨.binary payload, readable_leaf (s := .binary payload) trivial hs levels, rfl, rfl⟩
    | dict =>
      refine (gives_decodeDict fun n hn => ih n (Nat.lt_succ_of_lt hn)).map ?_
      rintro bytes d ⟨members, hfits, hdepth, rfl, rfl⟩
      exact ⟨.dict members, ⟨hfits, Nat.succ_lt_succ hdepth⟩, rfl, rfl⟩
    | list =>
      refine (gives_takeWord 4).bind ?_
      rintro count word ⟨hword, hcount⟩
      refine (gives_takeItems (ih levels levels.lt_succ_self) count []).map ?_
      rintro bytes all ⟨items, rfl, hitems, rfl, rfl⟩
      refine ⟨.list items, ⟨Spelling.fits_list.mpr ⟨hcount, fun i hi => (hitems i hi).1⟩, ?_⟩,
        ?_, ?_⟩
      · exact Nat.lt_succ_iff.mpr (itemsDepth_le.mpr fun i hi => (hitems i hi).2)
      · rw [hword]; rfl
      · rw [Spelling.value, itemsValue_eq, List.append_nil, List.reverse_reverse]
    | object => exact gives_fail _
    | compressed =>
      refine gives_takeBytes.map ?_
      rintro bytes payload ⟨rfl, hs⟩
      exact ⟨.packed payload, readable_leaf (s := .packed payload) trivial hs levels, rfl, rfl⟩
    | resource =>
      refine gives_takeText.map ?_
      rintro bytes name ⟨rfl, hs⟩
      exact ⟨.resource name, readable_leaf (s := .resource name) trivial hs levels, rfl, rfl⟩

end Codec

/-! ## Dictionaries -/

namespace Dict

open Codec

theorem reads_root {members : List (String × Spelling)} (h : (Spelling.dict members).Fits) :
    Reads (decodeDict (depthLimit + 1)) (dictBytes members) (membersDepth members ≤ depthLimit)
      (dictValue members) := by
  obtain ⟨hl, hmembers⟩ := Spelling.fits_dict.mp h
  exact (reads_decodeDict hl (fun member hm => ⟨(hmembers member hm).1,
    reads_decodeValue (hmembers member hm).2⟩) _).of_iff Nat.lt_succ_iff

/-- **Which octets decode, and as what.** -/
theorem decode_eq_ok_iff {bytes : Bytes} {d : Dict Value} :
    Dict.decode bytes = .ok d ↔ ∃ members, (Spelling.dict members).Fits ∧
      membersDepth members ≤ depthLimit ∧ bytes = dictBytes members ∧
      d = dictValue members := by
  unfold Dict.decode
  constructor
  · intro h
    split at h
    · cases h
    · next found input hread =>
      split_ifs at h with hrest
      obtain ⟨taken, hbytes, members, hfits, hdepth, rfl, hd⟩ :=
        gives_decodeDict (fun n _ => gives_decodeValue n) _ _ _ hread
      rw [List.isEmpty_iff.mp hrest, List.append_nil] at hbytes
      exact ⟨members, hfits, Nat.lt_succ_iff.mp hdepth, hbytes, (Except.ok.inj h).symm.trans hd⟩
  · rintro ⟨members, hfits, hdepth, rfl, rfl⟩
    have hread := ((reads_root hfits) 0 []).1 hdepth
    rw [List.append_nil] at hread
    rw [hread]
    rfl

/-- **Octets that spell a dictionary that is too deep do not decode**, for that reason. -/
theorem decode_dictBytes_of_deep {members : List (String × Spelling)}
    (h : (Spelling.dict members).Fits) (hdeep : depthLimit < membersDepth members) :
    ∃ fault, TooDeep fault ∧ Dict.decode (dictBytes members) = .error fault := by
  obtain ⟨fault, hfault, hread⟩ := ((reads_root h) 0 []).2 (Nat.not_le.mpr hdeep)
  rw [List.append_nil] at hread
  refine ⟨fault, hfault, ?_⟩
  unfold Dict.decode
  rw [hread]

end Dict

end ResourceTree
