import ResourceTree.Codec.Packed
import ResourceTree.Number.Text
import ResourceTree.Store.Basic
import ResourceTree.Text.Blank

/-!
# Conversion — a value as another kind

A value of the asked kind stays as it is. A handle converts through the value it stands for, unless
that is a handle again. All else is a table of pairs of kinds; dictionaries, their encoded octets
and packed dictionaries convert into each other.

* `Value.convertPlain`: conversion of a value that is no handle;
* **`Handles.convert`**, `convertOrDefault`, `toDict?`.
-/

namespace ResourceTree

namespace Value

/-- What text reads as a truth value. -/
def boolOfText? : String → Option Bool
  | "true" => some true
  | "false" => some false
  | _ => none

/-- The dictionary that an encoded, a compressed or a plain one is. -/
def plainDict? : Value → Option (Dict Value)
  | dict d => some d
  | binary bytes => (Dict.decode bytes).toOption
  | packed payload => payload.unpack.toOption
  | _ => none

/-- **Conversion of a value that is no handle.** -/
def convertPlain (v : Value) (target : Kind) : Option Value :=
  if v.kind = target then some v
  else
    match v, target with
    | bool b, .number => some (.ofNat (if b then 1 else 0))
    | bool b, .string => some (string (if b then "true" else "false"))
    | number n, .bool => some (bool n.isNonzero)
    | number n, .string => some (string n.text)
    | string s, .number =>
      (Number.ofText? (String.ofList (Text.trim s.toList))).map number
    | string s, .bool => (boolOfText? s).map bool
    | dict _, .binary | packed _, .binary =>
      v.plainDict?.bind fun d => (d.encode.toOption).map binary
    | binary _, .dict | packed _, .dict => v.plainDict?.map dict
    | dict _, .compressed | binary _, .compressed =>
      v.plainDict?.bind fun d => ((Packed.ofDict d).toOption).map packed
    | _, _ => none

end Value

namespace Handles

/-- The value that stands for `v` when it is read: a handle's current value, where a handle that
holds a handle stands for nothing. -/
def plain? (hs : Handles) : Value → Option Value
  | .resource h =>
    match hs.value h with
    | .resource _ => none
    | v => some v
  | v => some v

/-- **A value as another kind.** -/
def convert (hs : Handles) (v : Value) (target : Kind) : Option Value :=
  if v.kind = target then some v
  else (hs.plain? v).bind fun plain => plain.convertPlain target

/-- A value as another kind, or else the default of that kind. -/
def convertOrDefault (hs : Handles) (v : Value) (target : Kind) : Option Value :=
  (hs.convert v target).or (Value.default? target)

/-- A value as a dictionary. -/
def toDict? (hs : Handles) (v : Value) : Option (Dict Value) :=
  (hs.convert v .dict).bind Value.asDict?

end Handles

end ResourceTree
