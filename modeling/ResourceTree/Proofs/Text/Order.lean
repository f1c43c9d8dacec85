import Mathlib.Data.String.Basic
import ResourceTree.Bytes

/-!
# The order of texts is the order of their octets

UTF-8 gives a greater character greater octets, and no beginning of a character is a character. So
texts compare character by character as their octets compare octet by octet.

* `ofString_eq_flatMap`: the octets of a text, character after character;
* **`ofString_lt_ofString_iff`**; `ofString_injective`.
-/

namespace ResourceTree.Bytes

open String (utf8EncodeChar)

theorem ofString_eq_flatMap (s : String) : ofString s = s.toList.flatMap utf8EncodeChar := by
  change s.toByteArray.data.toList = _
  rw [← String.utf8Encode_toList, List.utf8Encode, List.toList_data_toByteArray]

theorem ofString_injective : Function.Injective ofString := fun s t h => by
  have := congrArg toString? h
  rwa [toString?_ofString, toString?_ofString, Option.some.injEq] at this

/-! ## Octets of one character -/

theorem ofNat_lt_ofNat_iff {m n : Nat} : UInt8.ofNat m < UInt8.ofNat n ↔ m % 256 < n % 256 := by
  simp [UInt8.lt_iff_toNat_lt]

theorem ofNat_eq_ofNat_iff {m n : Nat} : UInt8.ofNat m = UInt8.ofNat n ↔ m % 256 = n % 256 := by
  simp [← UInt8.toNat_inj]

/-- **A smaller character has smaller octets**, whatever follows. -/
theorem encodeChar_append_lt {c d : Char} (h : c < d) (xs ys : Bytes) :
    utf8EncodeChar c ++ xs < utf8EncodeChar d ++ ys := by
  have hlt : c.val.toNat < d.val.toNat := h
  have hmax : d.val.toNat < 1114112 := by
    have := d.valid
    simp only [UInt32.isValidChar, Nat.isValidChar] at this
    omega
  simp only [utf8EncodeChar]
  generalize c.val.toNat = m at hlt
  generalize d.val.toNat = n at hlt hmax
  -- the base-64 digits that the octets carry
  have hm : m / 4096 = m / 262144 * 64 + m / 4096 % 64 ∧ m / 64 = m / 4096 * 64 + m / 64 % 64 := by
    omega
  have hn : n / 4096 = n / 262144 * 64 + n / 4096 % 64 ∧ n / 64 = n / 4096 * 64 + n / 64 % 64 := by
    omega
  -- the lengths of the two encodings: a shorter one has the smaller lead octet
  split_ifs <;>
    simp only [List.cons_append, List.cons_lt_cons_iff, ofNat_lt_ofNat_iff,
      ofNat_eq_ofNat_iff] <;>
    simp (disch := omega) only [Nat.mod_eq_of_lt] <;>
    omega

/-! ## Texts -/

theorem flatMap_encodeChar_lt {l m : List Char} (h : l < m) :
    l.flatMap utf8EncodeChar < m.flatMap utf8EncodeChar := by
  induction h with
  | nil =>
    rename_i c cs
    simp only [List.flatMap_nil, List.flatMap_cons]
    cases hc : utf8EncodeChar c with
    | nil => simp [utf8EncodeChar] at hc; split_ifs at hc
    | cons => exact List.Lex.nil
  | rel h => exact encodeChar_append_lt h _ _
  | cons _ ih =>
    simp only [List.flatMap_cons]
    exact List.append_left_lt ih

/-- **Texts are in order exactly when their octets are.** -/
theorem ofString_lt_ofString_iff {s t : String} : ofString s < ofString t ↔ s < t := by
  have hlt : ∀ {a b : String}, a < b → ofString a < ofString b := fun h => by
    rw [ofString_eq_flatMap, ofString_eq_flatMap]
    exact flatMap_encodeChar_lt (String.lt_iff_toList_lt.mp h)
  refine ⟨fun h => ?_, hlt⟩
  rcases lt_trichotomy s t with hst | rfl | hts
  · exact hst
  · exact absurd h (List.lt_irrefl _)
  · exact absurd (hlt hts) (List.lt_asymm h)

end ResourceTree.Bytes
