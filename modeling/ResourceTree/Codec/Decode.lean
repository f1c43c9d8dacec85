import ResourceTree.Value.Basic

/-!
# Decoding — octets as dictionaries

The reader takes octets from the front and counts them, so that a fault can say where it arose.
The root dictionary has depth 0; a member has the depth of its dictionary plus one, and so has a
dictionary or an element inside the value that holds it. Nothing may lie deeper than
`depthLimit`; the reader carries the levels that are left.

* `DecodeFault`, `DecodeFault.message`;
* `Reader`: the octets left, and how many were taken;
* `Codec.decodeValue`, **`Dict.decode`**.
-/

namespace ResourceTree

/-- Why octets are no dictionary. -/
inductive DecodeFault where
  | unexpectedEnd (index : Nat)
  | invalidText (index : Nat)
  | dictTooDeep
  | valueTooDeep
  | unknownTag (tag index : Nat)
  | liveObject (index : Nat)
  /-- Octets are left over after the root dictionary. -/
  | trailing (count : Nat)
deriving DecidableEq, Repr

def DecodeFault.message : DecodeFault → String
  | unexpectedEnd n => s!"unexpected end of data at byte {n}"
  | invalidText n => s!"invalid UTF-8 string at byte {n}"
  | dictTooDeep => "dictionary nesting too deep"
  | valueTooDeep => "value nesting too deep"
  | unknownTag tag n => s!"unknown type tag {tag} at byte {n}"
  | liveObject n => s!"object value at byte {n}"
  | trailing count => s!"{count} trailing bytes after dictionary"

namespace Codec

/-- The greatest depth of a dictionary or a value. -/
def depthLimit : Nat := 256

/-- The octets left to read, and how many were taken. -/
structure Input where
  taken : Nat
  rest : Bytes

/-- A step that reads from the front. -/
abbrev Reader := StateT Input (Except DecodeFault)

/-- Takes `n` octets. -/
def take (n : Nat) : Reader Bytes := fun input =>
  match input.rest.split? n with
  | some (first, rest) => .ok (first, ⟨input.taken + n, rest⟩)
  | none => .error (.unexpectedEnd input.taken)

def position : Reader Nat := fun input => .ok (input.taken, input)

def fail {α : Type} (fault : DecodeFault) : Reader α := fun _ => .error fault

/-- Takes a little-endian word of `width` octets. -/
def takeWord (width : Nat) : Reader Nat := Bytes.toNat <$> take width

/-- Takes a length word and that many octets. -/
def takeBytes : Reader Bytes := do take (← takeWord 4)

/-- Takes a length word and a text. -/
def takeText : Reader String := do
  let start ← position
  match (← takeBytes).toString? with
  | some s => return s
  | none => fail (.invalidText start)

/-- Reads members and sets them in turn. -/
def takeMembers (value : Reader Value) : Nat → Dict Value → Reader (Dict Value)
  | 0, d => return d
  | count + 1, d => do
    let name ← takeText
    let v ← value
    takeMembers value count (d.set name v)

/-- Reads items; the last one read comes first. -/
def takeItems (value : Reader Value) : Nat → List Value → Reader (List Value)
  | 0, items => return items
  | count + 1, items => do
    let v ← value
    takeItems value count (v :: items)

mutual

/-- Reads a dictionary with so many levels left. -/
def decodeDict : Nat → Reader (Dict Value)
  | 0 => fail .dictTooDeep
  | levels + 1 => do
    let count ← takeWord 4
    takeMembers (decodeValue levels) count ∅

/-- Reads a value with so many levels left. -/
def decodeValue : Nat → Reader Value
  | 0 => fail .valueTooDeep
  | levels + 1 => do
    let start ← position
    let tag ← takeWord 1
    match Kind.ofTag? tag with
    | none => fail (.unknownTag tag start)
    | some .null => return .null
    | some .bool => return .bool ((← takeWord 1) ≠ 0)
    | some .number => return .number ⟨UInt64.ofNat (← takeWord 8)⟩
    | some .string => return .string (← takeText)
    | some .binary => return .binary (← takeBytes)
    | some .dict => return .dict (← decodeDict levels)
    | some .list => do
      let count ← takeWord 4
      return .list (← takeItems (decodeValue levels) count []).reverse
    | some .object => fail (.liveObject start)
    | some .compressed => return .packed ⟨← takeBytes⟩
    | some .resource => return .resource (Handle.detached (← takeText))

end

end Codec

/-- **The dictionary that the octets encode**; all of them have to be read. -/
def Dict.decode (bytes : Bytes) : Except DecodeFault (Dict Value) :=
  match Codec.decodeDict (Codec.depthLimit + 1) ⟨0, bytes⟩ with
  | .error fault => .error fault
  | .ok (d, input) => if input.rest.isEmpty then .ok d else .error (.trailing input.rest.length)

end ResourceTree
