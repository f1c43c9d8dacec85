import ResourceTree.Codec.Encode
import ResourceTree.Proofs.Text.Order
import ResourceTree.Proofs.Value.Shape

/-!
# Spellings — octets as a tree, before they are read as values

Different octets may stand for the same dictionary: the names may come in any order and more than
once, a member may be null, and any octet but 0 is true. A spelling is the tree of what the octets
say, with all of that kept.

* `Spelling`, `Spelling.induct`, `Spelling.Within`;
* `Spelling.bytes`, **`dictBytes`**: the octets, and those of a root dictionary;
* `Spelling.Fits`: every length fits in its word;
* `Spelling.value`, `Spelling.depth`: the value that is spelled, and how deep the spelling goes;
* **`Spelling.Canonical`**, **`Codec.Canonical`**: ascending names, no null members, and truth
  values 0 and 1, at every level;
* `Value.spelling`, `Dict.spelling`: how a value is written.
-/

namespace ResourceTree.Codec

/-- What a run of octets says. A truth value keeps its octet, a dictionary its members in the
order in which they stand. -/
inductive Spelling where
  | null
  | bool (octet : UInt8)
  | number (bits : UInt64)
  | string (s : String)
  | binary (bytes : Bytes)
  | dict (members : List (String × Spelling))
  | list (items : List Spelling)
  | packed (bytes : Bytes)
  | resource (name : String)

namespace Spelling

/-- Induction on spellings. -/
theorem induct {P : Spelling → Prop} (null : P .null) (bool : ∀ octet, P (.bool octet))
    (number : ∀ bits, P (.number bits)) (string : ∀ s, P (.string s))
    (binary : ∀ bytes, P (.binary bytes))
    (dict : ∀ members : List (String × Spelling), (∀ member ∈ members, P member.2) →
      P (.dict members))
    (list : ∀ items, (∀ item ∈ items, P item) → P (.list items))
    (packed : ∀ bytes, P (.packed bytes)) (resource : ∀ name, P (.resource name))
    (s : Spelling) : P s :=
  @Spelling.rec P (fun members => ∀ member ∈ members, P member.2)
    (fun items => ∀ item ∈ items, P item) (fun member => P member.2)
    null bool number string binary dict list packed resource
    (fun _ h => nomatch h) (fun _ _ hm hms => List.forall_mem_cons.mpr ⟨hm, hms⟩)
    (fun _ h => nomatch h) (fun _ _ hi his => List.forall_mem_cons.mpr ⟨hi, his⟩)
    (fun _ _ hs => hs) s

/-- A spelling is another one or occurs in it. What is packed does not occur. -/
inductive Within : Spelling → Spelling → Prop where
  | self {s : Spelling} : Within s s
  | member {x : Spelling} {members : List (String × Spelling)} {member : String × Spelling} :
      member ∈ members → Within x member.2 → Within x (.dict members)
  | item {x : Spelling} {items : List Spelling} {s : Spelling} :
      s ∈ items → Within x s → Within x (.list items)

end Spelling

/-! ## Octets -/

/-- A length word and so many octets. -/
def counted (bytes : Bytes) : Bytes := Bytes.ofNat 4 bytes.length ++ bytes

mutual

/-- The octets of a spelling: a tag and a payload. -/
def Spelling.bytes : Spelling → Bytes
  | .null => [0]
  | .bool octet => [1, octet]
  | .number bits => 2 :: Bytes.ofNat 8 bits.toNat
  | .string s => 3 :: counted (Bytes.ofString s)
  | .binary bytes => 4 :: counted bytes
  | .dict members => 5 :: (Bytes.ofNat 4 members.length ++ membersBytes members)
  | .list items => 6 :: (Bytes.ofNat 4 items.length ++ itemsBytes items)
  | .packed bytes => 8 :: counted bytes
  | .resource name => 9 :: counted (Bytes.ofString name)

def membersBytes : List (String × Spelling) → Bytes
  | [] => []
  | (name, s) :: rest => counted (Bytes.ofString name) ++ s.bytes ++ membersBytes rest

def itemsBytes : List Spelling → Bytes
  | [] => []
  | s :: rest => s.bytes ++ itemsBytes rest

end

/-- **The octets of a root dictionary**: the count of the members and the members. -/
def dictBytes (members : List (String × Spelling)) : Bytes :=
  Bytes.ofNat 4 members.length ++ membersBytes members

/-- The octets of one member. -/
def memberBytes (member : String × Spelling) : Bytes :=
  counted (Bytes.ofString member.1) ++ member.2.bytes

theorem membersBytes_eq (members : List (String × Spelling)) :
    membersBytes members = members.flatMap memberBytes := by
  induction members with
  | nil => rfl
  | cons member rest ih => simp [membersBytes, ih, memberBytes]

theorem itemsBytes_eq (items : List Spelling) :
    itemsBytes items = items.flatMap Spelling.bytes := by
  induction items with
  | nil => rfl
  | cons item rest ih => simp [itemsBytes, ih]

namespace Spelling

variable {members : List (String × Spelling)} {items : List Spelling}

/-! ## Lengths -/

/-- A length that fits in its word. -/
def LengthFits (n : Nat) : Prop := n < Nat.pow 2 32

instance : DecidablePred LengthFits := fun n => Nat.decLt n _

/-- The lengths that a spelling itself writes fit. -/
def FitsHere : Spelling → Prop
  | .string s | .resource s => LengthFits (Bytes.ofString s).length
  | .binary bytes | .packed bytes => LengthFits bytes.length
  | .dict members =>
    LengthFits members.length ∧ ∀ member ∈ members, LengthFits (Bytes.ofString member.1).length
  | .list items => LengthFits items.length
  | .null | .bool _ | .number _ => True

/-- Every length that is written fits in its word. -/
def Fits (s : Spelling) : Prop := ∀ x, Within x s → x.FitsHere

theorem fits_dict : Fits (.dict members) ↔ LengthFits members.length ∧
    ∀ member ∈ members, LengthFits (Bytes.ofString member.1).length ∧ member.2.Fits := by
  constructor
  · intro h
    have hroot := h _ .self
    exact ⟨hroot.1, fun member hm => ⟨hroot.2 member hm, fun x hx => h x (.member hm hx)⟩⟩
  · rintro ⟨hl, h⟩ x (_ | ⟨hm, hx⟩)
    · exact ⟨hl, fun member hm => (h member hm).1⟩
    · exact (h _ hm).2 x hx

theorem fits_list : Fits (.list items) ↔ LengthFits items.length ∧ ∀ item ∈ items, item.Fits := by
  constructor
  · exact fun h => ⟨h _ .self, fun item hi x hx => h x (.item hi hx)⟩
  · rintro ⟨hl, h⟩ x (_ | _ | ⟨hi, hx⟩)
    · exact hl
    · exact h _ hi x hx

/-- A spelling without parts. -/
def IsLeaf : Spelling → Prop
  | .dict _ | .list _ => False
  | _ => True

/-- A spelling without parts fits when its own length does. -/
theorem fits_leaf {s : Spelling} (h : s.IsLeaf) : s.Fits ↔ s.FitsHere := by
  refine ⟨fun hfits => hfits s .self, fun hfits x hx => ?_⟩
  cases hx with
  | self => exact hfits
  | member => exact absurd h id
  | item => exact absurd h id

/-! ## Octets spell one tree -/

theorem word_inj {width m n : Nat} (hm : m < Nat.pow 256 width) (hn : n < Nat.pow 256 width)
    (h : Bytes.ofNat width m = Bytes.ofNat width n) : m = n := by
  have := congrArg Bytes.toNat h
  rwa [Bytes.toNat_ofNat, Bytes.toNat_ofNat, Nat.mod_eq_of_lt hm, Nat.mod_eq_of_lt hn] at this

theorem word_append_inj {width m n : Nat} (hm : m < Nat.pow 256 width)
    (hn : n < Nat.pow 256 width) {xs ys : Bytes}
    (h : Bytes.ofNat width m ++ xs = Bytes.ofNat width n ++ ys) : m = n ∧ xs = ys := by
  obtain ⟨hw, hrest⟩ := List.append_inj h (by simp)
  exact ⟨word_inj hm hn hw, hrest⟩

theorem counted_append_inj {a b xs ys : Bytes} (ha : LengthFits a.length)
    (hb : LengthFits b.length) (h : counted a ++ xs = counted b ++ ys) : a = b ∧ xs = ys := by
  simp only [counted, List.append_assoc] at h
  obtain ⟨hl, hrest⟩ := word_append_inj ha hb h
  exact List.append_inj hrest hl

theorem flatMap_append_inj {α : Type} {f : α → Bytes} {as bs : List α}
    (hl : as.length = bs.length)
    (h : ∀ a ∈ as, ∀ b ∈ bs, ∀ xs ys, f a ++ xs = f b ++ ys → a = b ∧ xs = ys) {xs ys : Bytes}
    (heq : as.flatMap f ++ xs = bs.flatMap f ++ ys) : as = bs ∧ xs = ys := by
  induction as generalizing bs with
  | nil =>
    obtain rfl := List.length_eq_zero_iff.mp hl.symm
    exact ⟨rfl, heq⟩
  | cons a as ih =>
    obtain ⟨b, bs, rfl⟩ := List.exists_cons_of_length_eq_add_one hl.symm
    simp only [List.flatMap_cons, List.append_assoc] at heq
    obtain ⟨rfl, hrest⟩ := h a List.mem_cons_self b List.mem_cons_self _ _ heq
    obtain ⟨rfl, hxs⟩ := ih (Nat.succ.inj hl)
      (fun x hx y hy => h x (List.mem_cons_of_mem _ hx) y (List.mem_cons_of_mem _ hy)) hrest
    exact ⟨rfl, hxs⟩

/-- **Two spellings that fit and begin the same octets are the same.** -/
theorem bytes_append_inj {s t : Spelling} (hs : s.Fits) (ht : t.Fits) {xs ys : Bytes}
    (h : s.bytes ++ xs = t.bytes ++ ys) : s = t ∧ xs = ys := by
  induction s using induct generalizing t xs ys with
  | null => cases t <;> simp [bytes] at h ⊢; exact h
  | bool octet => cases t <;> simp [bytes] at h ⊢; exact h
  | number bits =>
    cases t <;> simp [bytes] at h ⊢
    obtain ⟨hw, hrest⟩ := word_append_inj bits.toNat_lt (UInt64.toNat_lt _) h
    exact ⟨UInt64.toNat_inj.mp hw, hrest⟩
  | string s =>
    cases t <;> simp [bytes] at h ⊢
    obtain ⟨hb, hrest⟩ := counted_append_inj (hs _ .self) (ht _ .self) h
    exact ⟨Bytes.ofString_injective hb, hrest⟩
  | binary bytes =>
    cases t <;> simp [Spelling.bytes] at h ⊢
    exact counted_append_inj (hs _ .self) (ht _ .self) h
  | dict members ih =>
    cases t <;> simp [bytes, membersBytes_eq] at h ⊢
    obtain ⟨hl, hs⟩ := fits_dict.mp hs
    obtain ⟨hl', ht⟩ := fits_dict.mp ht
    obtain ⟨hlen, hrest⟩ := word_append_inj hl hl' h
    refine flatMap_append_inj hlen (fun a ha b hb xs ys h => ?_) hrest
    simp only [memberBytes, List.append_assoc] at h
    obtain ⟨hname, h⟩ := counted_append_inj (hs a ha).1 (ht b hb).1 h
    obtain ⟨hvalue, h⟩ := ih a ha (hs a ha).2 (ht b hb).2 h
    exact ⟨Prod.ext (Bytes.ofString_injective hname) hvalue, h⟩
  | list items ih =>
    cases t <;> simp [bytes, itemsBytes_eq] at h ⊢
    obtain ⟨hl, hs⟩ := fits_list.mp hs
    obtain ⟨hl', ht⟩ := fits_list.mp ht
    obtain ⟨hlen, hrest⟩ := word_append_inj hl hl' h
    exact flatMap_append_inj hlen (fun a ha b hb xs ys h => ih a ha (hs a ha) (ht b hb) h) hrest
  | packed bytes =>
    cases t <;> simp [Spelling.bytes] at h ⊢
    exact counted_append_inj (hs _ .self) (ht _ .self) h
  | resource name =>
    cases t <;> simp [bytes] at h ⊢
    obtain ⟨hb, hrest⟩ := counted_append_inj (hs _ .self) (ht _ .self) h
    exact ⟨Bytes.ofString_injective hb, hrest⟩

theorem dictBytes_inj {other : List (String × Spelling)} (hs : Fits (.dict members))
    (ht : Fits (.dict other)) (h : dictBytes members = dictBytes other) : members = other := by
  have hbytes : (dict members).bytes ++ [] = (dict other).bytes ++ [] :=
    congrArg (fun bytes => 5 :: bytes ++ []) h
  exact Spelling.dict.inj (bytes_append_inj hs ht hbytes).1

/-! ## Normal form -/

/-- The names of a spelled dictionary strictly ascend in byte order and no member is null; a
spelled truth value is 0 or 1. -/
def CanonicalHere : Spelling → Prop
  | .bool octet => octet = 0 ∨ octet = 1
  | .dict members =>
    (members.map fun member => Bytes.ofString member.1).Pairwise (· < ·) ∧
      ∀ member ∈ members, member.2 ≠ .null
  | _ => True

/-- **Normal form at every level.** -/
def Canonical (s : Spelling) : Prop := ∀ x, Within x s → x.CanonicalHere

theorem canonical_dict : Canonical (.dict members) ↔
    (Dict.names members).Pairwise (· < ·) ∧
      ∀ member ∈ members, member.2 ≠ .null ∧ member.2.Canonical := by
  have hnames : (members.map fun member => Bytes.ofString member.1).Pairwise (· < ·) ↔
      (Dict.names members).Pairwise (· < ·) := by
    simp only [Dict.names, List.pairwise_map, Bytes.ofString_lt_ofString_iff]
  constructor
  · intro h
    have hroot := h _ .self
    exact ⟨hnames.mp hroot.1, fun member hm => ⟨hroot.2 member hm, fun x hx => h x (.member hm hx)⟩⟩
  · rintro ⟨hp, h⟩ x (_ | ⟨hm, hx⟩)
    · exact ⟨hnames.mpr hp, fun member hm => (h member hm).1⟩
    · exact (h _ hm).2 x hx

theorem canonical_list : Canonical (.list items) ↔ ∀ item ∈ items, item.Canonical := by
  constructor
  · exact fun h item hi x hx => h x (.item hi hx)
  · rintro h x (_ | _ | ⟨hi, hx⟩)
    · trivial
    · exact h _ hi x hx

end Spelling

/-- **Octets in normal form**: they spell a dictionary, and at every level outside packed
dictionaries the names strictly ascend in byte order, no member is null, and a truth value is 0
or 1. -/
def Canonical (bytes : Bytes) : Prop :=
  ∃ members, (Spelling.dict members).Fits ∧ (Spelling.dict members).Canonical ∧
    bytes = dictBytes members

/-- Only one tree decides whether octets are in normal form. -/
theorem canonical_dictBytes_iff {members : List (String × Spelling)}
    (h : (Spelling.dict members).Fits) :
    Canonical (dictBytes members) ↔ (Spelling.dict members).Canonical := by
  refine ⟨?_, fun hc => ⟨members, h, hc, rfl⟩⟩
  rintro ⟨other, hfits, hc, heq⟩
  exact Spelling.dictBytes_inj h hfits heq ▸ hc

/-! ## Meaning -/

mutual

/-- The value that is spelled: members are set in turn. -/
def Spelling.value : Spelling → Value
  | .null => .null
  | .bool octet => .bool (octet ≠ 0)
  | .number bits => .number ⟨bits⟩
  | .string s => .string s
  | .binary bytes => .binary bytes
  | .dict members => .dict (Dict.ofValues (membersValue members))
  | .list items => .list (itemsValue items)
  | .packed bytes => .packed ⟨bytes⟩
  | .resource name => .resource (Handle.detached name)

def membersValue : List (String × Spelling) → List (String × Value)
  | [] => []
  | (name, s) :: rest => (name, s.value) :: membersValue rest

def itemsValue : List Spelling → List Value
  | [] => []
  | s :: rest => s.value :: itemsValue rest

end

theorem membersValue_eq (members : List (String × Spelling)) :
    membersValue members = members.map (Prod.map id Spelling.value) := by
  induction members with
  | nil => rfl
  | cons member rest ih => simp [membersValue, ih, Prod.map]

theorem itemsValue_eq (items : List Spelling) : itemsValue items = items.map Spelling.value := by
  induction items with
  | nil => rfl
  | cons item rest ih => simp [itemsValue, ih]

/-- The dictionary that the members of a root dictionary spell. -/
abbrev dictValue (members : List (String × Spelling)) : Dict Value :=
  Dict.ofValues (membersValue members)

mutual

/-- How deep the spelling goes below its root, counted as for values. -/
def Spelling.depth : Spelling → Nat
  | .dict members => membersDepth members + 1
  | .list items => itemsDepth items
  | _ => 0

def membersDepth : List (String × Spelling) → Nat
  | [] => 0
  | (_, s) :: rest => max (s.depth + 1) (membersDepth rest)

def itemsDepth : List Spelling → Nat
  | [] => 0
  | s :: rest => max (s.depth + 1) (itemsDepth rest)

end

theorem membersDepth_le {members : List (String × Spelling)} {n : Nat} :
    membersDepth members ≤ n ↔ ∀ member ∈ members, member.2.depth + 1 ≤ n := by
  induction members with
  | nil => simp [membersDepth]
  | cons member rest ih => simp [membersDepth, ih]

theorem itemsDepth_le {items : List Spelling} {n : Nat} :
    itemsDepth items ≤ n ↔ ∀ item ∈ items, item.depth + 1 ≤ n := by
  induction items with
  | nil => simp [itemsDepth]
  | cons item rest ih => simp [itemsDepth, ih]

end ResourceTree.Codec

namespace ResourceTree

/-! ## Writing -/

open Codec (Spelling)

mutual

/-- How a value is written: members in key order. A live object cannot be written. -/
def Value.spelling : Value → Spelling
  | .null | .object _ => .null
  | .bool b => .bool (if b then 1 else 0)
  | .number n => .number n.bits
  | .string s => .string s
  | .binary bytes => .binary bytes
  | .dict ⟨_, entries⟩ => .dict (Dict.inKeyOrder (Value.membersSpelling entries))
  | .list items => .list (Value.itemsSpelling items)
  | .packed payload => .packed payload.bytes
  | .resource handle => .resource handle.name

def Value.membersSpelling : List (String × Value) → List (String × Spelling)
  | [] => []
  | (name, v) :: rest => (name, v.spelling) :: Value.membersSpelling rest

def Value.itemsSpelling : List Value → List Spelling
  | [] => []
  | v :: rest => v.spelling :: Value.itemsSpelling rest

end

theorem Value.membersSpelling_eq (entries : List (String × Value)) :
    membersSpelling entries = entries.map (Prod.map id Value.spelling) := by
  induction entries with
  | nil => rfl
  | cons entry rest ih => simp [membersSpelling, ih, Prod.map]

theorem Value.itemsSpelling_eq (items : List Value) :
    itemsSpelling items = items.map Value.spelling := by
  induction items with
  | nil => rfl
  | cons item rest ih => simp [itemsSpelling, ih]

/-- How the members of a dictionary are written. -/
def Dict.spelling (d : Dict Value) : List (String × Spelling) :=
  (Dict.inKeyOrder d.entries).map (Prod.map id Value.spelling)

@[simp] theorem Value.spelling_dict (d : Dict Value) :
    (Value.dict d).spelling = .dict d.spelling := by
  obtain ⟨storage, entries⟩ := d
  rw [Value.spelling, Value.membersSpelling_eq, Dict.inKeyOrder_map, Dict.spelling]

@[simp] theorem Value.spelling_list (items : List Value) :
    (Value.list items).spelling = .list (items.map Value.spelling) := by
  rw [Value.spelling, Value.itemsSpelling_eq]

end ResourceTree
