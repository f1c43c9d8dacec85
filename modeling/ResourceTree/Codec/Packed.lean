import ResourceTree.Codec.Decode
import ResourceTree.Codec.Encode
import ResourceTree.Error
import ResourceTree.Lz4.Compress

/-!
# Packed dictionaries — encoded, compressed, and opened when asked for

* `UnpackFault`: the octets do not expand, or what they expand to is no dictionary;
* **`Packed.ofDict`**, **`Packed.unpack`**;
* `Sealed`: a packed dictionary that remembers the dictionary once it was opened;
* the errors that the faults of this format amount to.
-/

namespace ResourceTree

/-- Why a packed dictionary cannot be opened. -/
inductive UnpackFault where
  | block (fault : Lz4.BlockFault)
  | dictionary (fault : DecodeFault)
deriving DecidableEq, Repr

def UnpackFault.message : UnpackFault → String
  | block fault => fault.message
  | dictionary fault => fault.message

def EncodeFault.toError (fault : EncodeFault) : ResourceError := .encode fault.message

def DecodeFault.toError (fault : DecodeFault) : ResourceError := .decode fault.message

def UnpackFault.toError (fault : UnpackFault) : ResourceError := .decode fault.message

def Lz4.BlockFault.toError (fault : Lz4.BlockFault) : ResourceError := .decode fault.message

/-- Expands octets and reads the dictionary in them. -/
def Dict.decodeCompressed (bytes : Bytes) : Except UnpackFault (Dict Value) :=
  match Lz4.decompress bytes with
  | .error fault => .error (.block fault)
  | .ok expanded =>
    match Dict.decode expanded with
    | .error fault => .error (.dictionary fault)
    | .ok d => .ok d

namespace Packed

/-- Encodes and compresses a dictionary. -/
def ofDict (d : Dict Value) : Except EncodeFault Packed := do
  return ⟨Lz4.compress (← d.encode)⟩

/-- The dictionary inside. -/
def unpack (p : Packed) : Except UnpackFault (Dict Value) := Dict.decodeCompressed p.bytes

end Packed

/-- A packed dictionary, with the dictionary inside once it was opened. -/
structure Sealed where
  payload : Packed
  opened : Option (Dict Value)

namespace Sealed

def new (payload : Packed) : Sealed := ⟨payload, none⟩

def isOpened (s : Sealed) : Bool := s.opened.isSome

/-- The dictionary inside, remembered for the next time; a failure is not remembered. -/
def reveal (s : Sealed) : Except UnpackFault (Dict Value) × Sealed :=
  match s.opened with
  | some d => (.ok d, s)
  | none =>
    match s.payload.unpack with
    | .ok d => (.ok d, { s with opened := some d })
    | .error fault => (.error fault, s)

end Sealed

end ResourceTree
