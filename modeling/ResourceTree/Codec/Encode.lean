import ResourceTree.Value.Basic

/-!
# Encoding — dictionaries as octets

Words are little-endian. A dictionary is the count of its entries, then each name and value in key
order; a text is its length and its octets; a value is the tag of its kind and a payload. A packed
dictionary is written as its compressed octets and a handle as its name. Live objects have no
encoded form.

* `EncodeFault`, `EncodeFault.message`;
* `Value.encode`, **`Dict.encode`**.
-/

namespace ResourceTree

/-- Why a dictionary has no encoded form. -/
inductive EncodeFault where
  /-- A length that does not fit in 32 bits. -/
  | tooLong (length : Nat)
  | liveObject (typeName : String)
deriving DecidableEq, Repr

def EncodeFault.message : EncodeFault → String
  | tooLong length => s!"length {length} does not fit the format"
  | liveObject typeName => s!"live '{typeName}' object cannot be encoded"

namespace Codec

/-- A length word. -/
def encodeLength (n : Nat) : Except EncodeFault Bytes :=
  if n < Nat.pow 2 32 then .ok (Bytes.ofNat 4 n) else .error (.tooLong n)

/-- A length word and the octets. -/
def encodeBytes (bytes : Bytes) : Except EncodeFault Bytes := do
  return (← encodeLength bytes.length) ++ bytes

/-- A run of parts one after another; the first fault wins. -/
def join : List (Except EncodeFault Bytes) → Except EncodeFault Bytes
  | [] => .ok []
  | part :: parts => do return (← part) ++ (← join parts)

/-- The count of the members and the members in key order, from their names and their encoded
values. -/
def assemble (members : List (String × Except EncodeFault Bytes)) : Except EncodeFault Bytes := do
  let count ← encodeLength members.length
  let parts := (Dict.inKeyOrder members).map fun member => do
    return (← encodeBytes (Bytes.ofString member.1)) ++ (← member.2)
  return count ++ (← join parts)

mutual

/-- The tag and the payload of a value. -/
def encodeValue : Value → Except EncodeFault Bytes
  | .null => .ok [0]
  | .bool b => .ok [1, if b then 1 else 0]
  | .number n => .ok (2 :: Bytes.ofNat 8 n.bits.toNat)
  | .string s => (3 :: ·) <$> encodeBytes (Bytes.ofString s)
  | .binary bytes => (4 :: ·) <$> encodeBytes bytes
  | .dict ⟨_, entries⟩ => (5 :: ·) <$> assemble (encodeMembers entries)
  | .list items => do
    let count ← encodeLength items.length
    return 6 :: (count ++ (← join (encodeItems items)))
  | .object ref => .error (.liveObject ref.typeName)
  | .packed payload => (8 :: ·) <$> encodeBytes payload.bytes
  | .resource handle => (9 :: ·) <$> encodeBytes (Bytes.ofString handle.name)

/-- The encoded values of entries, beside their names. -/
def encodeMembers : List (String × Value) → List (String × Except EncodeFault Bytes)
  | [] => []
  | (name, value) :: rest => (name, encodeValue value) :: encodeMembers rest

def encodeItems : List Value → List (Except EncodeFault Bytes)
  | [] => []
  | item :: rest => encodeValue item :: encodeItems rest

end

end Codec

/-- **The encoded form of a dictionary.** -/
def Dict.encode (d : Dict Value) : Except EncodeFault Bytes :=
  Codec.assemble (Codec.encodeMembers d.entries)

end ResourceTree
