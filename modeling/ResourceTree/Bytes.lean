/-!
# Bytes — words and text as runs of octets

* `Bytes.ofNat`, `Bytes.toNat`: little-endian words, least octet first;
* `Bytes.ofString`, `Bytes.toString?`: text in UTF-8;
* `Bytes.split?`: the first so many octets and the rest;
* **`toString?_ofString`**, **`toNat_ofNat`**, **`split?_eq_some_iff`**.
-/

namespace ResourceTree

/-- A run of octets. -/
abbrev Bytes := List UInt8

namespace Bytes

/-! ## Words -/

/-- The `width` low octets of a natural, least octet first. -/
def ofNat : Nat → Nat → Bytes
  | 0, _ => []
  | width + 1, n => UInt8.ofNat n :: ofNat width (n / 256)

/-- The natural with the given octets, least octet first. -/
def toNat : Bytes → Nat
  | [] => 0
  | b :: bs => b.toNat + 256 * toNat bs

@[simp] theorem length_ofNat (width n : Nat) : (ofNat width n).length = width := by
  induction width generalizing n with
  | zero => rfl
  | succ width ih => simp [ofNat, ih]

/-- **A word reads back modulo its width.** -/
theorem toNat_ofNat (width n : Nat) : toNat (ofNat width n) = n % Nat.pow 256 width := by
  induction width generalizing n with
  | zero => simp [ofNat, toNat, Nat.mod_one]
  | succ width ih =>
    have hpow : Nat.pow 256 (width + 1) = 256 * Nat.pow 256 width := Nat.mul_comm _ _
    rw [ofNat, toNat, ih, hpow, Nat.mod_mul]
    simp

/-! ## Text -/

/-- The octets of a text. -/
def ofString (s : String) : Bytes := s.toUTF8.data.toList

/-- The text that the octets spell, if they are well-formed UTF-8. -/
def toString? (bytes : Bytes) : Option String := String.fromUTF8? ⟨bytes.toArray⟩

/-- **A text reads back from its octets.** -/
theorem toString?_ofString (s : String) : toString? (ofString s) = some s := by
  have h : String.fromUTF8? s.toUTF8 = some s := by
    unfold String.fromUTF8?
    split
    · next hv => rfl
    · next hv => exact absurd s.isValidUTF8 (by simpa using hv)
  simpa [toString?, ofString] using h

/-! ## Cutting -/

/-- The first `n` octets and the rest, when there are that many. -/
def split? (n : Nat) (bytes : Bytes) : Option (Bytes × Bytes) :=
  let cut := bytes.splitAt n
  if cut.1.length = n then some cut else none

/-- **A cut gives back the whole, and its first part has the asked length.** -/
theorem split?_eq_some_iff {n : Nat} {bytes first rest : Bytes} :
    split? n bytes = some (first, rest) ↔ first ++ rest = bytes ∧ first.length = n := by
  simp only [split?, List.splitAt_eq, Option.ite_none_right_eq_some, Option.some.injEq,
    Prod.mk.injEq]
  constructor
  · rintro ⟨h, rfl, rfl⟩
    exact ⟨List.take_append_drop n bytes, h⟩
  · rintro ⟨rfl, rfl⟩
    simp

end Bytes

end ResourceTree
