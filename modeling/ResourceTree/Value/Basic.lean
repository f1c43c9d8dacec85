import ResourceTree.Bytes
import ResourceTree.Dict
import ResourceTree.Number.Basic
import ResourceTree.Value.Kind

/-!
# Values — the nodes of a resource tree

A value is a scalar, a run of octets, a dictionary, a list, a live object, a dictionary packed into
compressed octets, or a named handle. Objects and handles are references into a store; a value
holds their numbers and their names only.

* `Handle`, `ObjectRef`, `Packed`, `Value`;
* `Value.kind`, the views `asBool?` … `asHandle?`, `Value.default?`;
* `Dict.set`: setting a name to null removes it;
* `Dict.mergeUnder`, `Dict.overrideWith`, `Dict.merged`.
-/

namespace ResourceTree

/-- A named reference to a replaceable slot of a store. A handle that was read from encoded form
is detached: it has no slot, and stands for null until a store puts its own handle in its place. -/
structure Handle where
  name : String
  slot : Option Nat
deriving DecidableEq, Repr, Inhabited

/-- The handle of a name that no store knows. -/
def Handle.detached (name : String) : Handle := ⟨name, none⟩

/-- A reference to a live object of a store. -/
structure ObjectRef where
  id : Nat
  typeName : String
deriving DecidableEq, Repr, Inhabited

/-- A dictionary in encoded and compressed form. -/
structure Packed where
  bytes : Bytes
deriving DecidableEq, Inhabited

/-- A node of a resource tree. -/
inductive Value where
  | null
  | bool (b : Bool)
  | number (n : Number)
  | string (s : String)
  | binary (bytes : Bytes)
  | dict (members : Dict Value)
  | list (items : List Value)
  | object (ref : ObjectRef)
  | packed (payload : Packed)
  | resource (handle : Handle)
deriving Inhabited

namespace Value

def kind : Value → Kind
  | null => .null
  | bool _ => .bool
  | number _ => .number
  | string _ => .string
  | binary _ => .binary
  | dict _ => .dict
  | list _ => .list
  | object _ => .object
  | packed _ => .compressed
  | resource _ => .resource

def isNull : Value → Bool
  | null => true
  | _ => false

/-! ## Views of one kind -/

def asBool? : Value → Option Bool
  | bool b => some b
  | _ => none

def asNumber? : Value → Option Number
  | number n => some n
  | _ => none

def asString? : Value → Option String
  | string s => some s
  | _ => none

def asDict? : Value → Option (Dict Value)
  | dict members => some members
  | _ => none

def asList? : Value → Option (List Value)
  | list items => some items
  | _ => none

def asObject? : Value → Option ObjectRef
  | object ref => some ref
  | _ => none

def asHandle? : Value → Option Handle
  | resource handle => some handle
  | _ => none

/-- The number that a natural is, as a value. -/
def ofNat (n : Nat) : Value := number (Number.ofNat n)

/-- The default of a kind. Objects, compressed dictionaries and handles have none. -/
def default? : Kind → Option Value
  | .null => some null
  | .bool => some (bool false)
  | .number => some (number Number.zero)
  | .string => some (string "")
  | .binary => some (binary [])
  | .dict => some (dict ∅)
  | .list => some (list [])
  | .object | .compressed | .resource => none

end Value

namespace Dict

/-- Sets a name to a value; null removes the name, so no dictionary holds null. -/
def set (d : Dict Value) (name : String) (value : Value) : Dict Value :=
  match value with
  | .null => d.erase name
  | value => d.insert name value

/-- The dictionary that arises by setting the given names in turn. -/
def ofValues (entries : List (String × Value)) : Dict Value :=
  entries.foldl (fun d entry => d.set entry.1 entry.2) ∅

/-- Sets the given names in turn. -/
def extend (d : Dict Value) (entries : List (String × Value)) : Dict Value :=
  entries.foldl (fun d entry => d.set entry.1 entry.2) d

/-- Adds the entries of `base` whose names are free. -/
def mergeUnder (d base : Dict Value) : Dict Value :=
  base.entries.foldl (fun d entry =>
    if d.contains entry.1 then d else d.set entry.1 entry.2) d

/-- Sets every entry of `other`. -/
def overrideWith (d other : Dict Value) : Dict Value := d.extend other.entries

/-- `overrides` on top of `base`. -/
def merged (base overrides : Dict Value) : Dict Value := base.overrideWith overrides

/-- The sum of the numbers of a dictionary, in the order of its entries; the empty sum is `-0`. -/
def numberSum (d : Dict Value) : Number :=
  (d.entries.filterMap fun entry => entry.2.asNumber?).foldl Number.add .negZero

end Dict

end ResourceTree
