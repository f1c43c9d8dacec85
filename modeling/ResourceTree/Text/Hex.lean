import ResourceTree.Bytes

/-!
# Hexadecimal text

Octets are written as two lower-case digits each.

* `Hex.encode`, `Hex.decode`: a digit that stands alone at the end is left out;
* **`Hex.decode_encode_octets`**.
-/

namespace ResourceTree.Text.Hex

/-- The digit for a value below 16. -/
def digit (n : Nat) : Char := if n < 10 then Char.ofNat (48 + n) else Char.ofNat (87 + n)

/-- The value of a digit. -/
def value (c : Char) : Nat := if c.toNat < 58 then c.toNat - 48 else c.toNat - 87

def encodeChars : Bytes → List Char
  | [] => []
  | b :: bytes => digit (b.toNat / 16) :: digit (b.toNat % 16) :: encodeChars bytes

def decodeChars : List Char → Bytes
  | a :: b :: rest => UInt8.ofNat (16 * value a + value b) :: decodeChars rest
  | _ => []

/-- The digits of a run of octets. -/
def encode (bytes : Bytes) : String := String.ofList (encodeChars bytes)

/-- The octets that digits stand for. -/
def decode (s : String) : Bytes := decodeChars s.toList

theorem value_digit : ∀ n < 16, value (digit n) = n := by decide

theorem decodeChars_encodeChars (bytes : Bytes) : decodeChars (encodeChars bytes) = bytes := by
  induction bytes with
  | nil => rfl
  | cons b bytes ih =>
    have h : b.toNat < 256 := b.toNat_lt
    rw [encodeChars, decodeChars, ih, value_digit _ (by omega), value_digit _ (by omega)]
    have hb : 16 * (b.toNat / 16) + b.toNat % 16 = b.toNat := by omega
    rw [hb, UInt8.ofNat_toNat]

/-- **Octets read back from their digits.** -/
theorem decode_encode_octets (bytes : Bytes) : decode (encode bytes) = bytes := by
  simp [decode, encode, decodeChars_encodeChars]

end ResourceTree.Text.Hex
