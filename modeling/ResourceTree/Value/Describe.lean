import ResourceTree.Number.Text
import ResourceTree.Store.Basic
import ResourceTree.Text.Quoted

/-!
# Descriptions — how a value is shown to a person

Scalars are shown by their text, strings quoted, octets by their count, dictionaries in key order
between braces, lists between brackets. A packed dictionary shows its size and whether it was
opened; a handle shows its own slot.

* `Handle.describe`, `Packed.describe`;
* **`Value.describe`**, **`Dict.describe`**.
-/

namespace ResourceTree

/-- Parts with commas between them. -/
def commaSeparated (parts : List String) : String := ", ".intercalate parts

/-- The description of a record: its name, and its fields with their values. -/
def describeRecord (name : String) (fields : List (String × String)) : String :=
  name ++ " \x7b " ++ commaSeparated (fields.map fun field => field.1 ++ ": " ++ field.2) ++ " \x7d"

def Packed.describe (p : Packed) (opened : Bool) : String :=
  describeRecord "CompressedDict"
    [("compressed_len", toString p.bytes.length), ("decoded", toString opened)]

/-- The description of a handle: the kind is that of the value in its own slot. -/
def Handles.describe (hs : Handles) (h : Handle) : String :=
  describeRecord "SharedResource"
    [("name", Text.quoted h.name), ("kind", (hs.ownValue h).kind.title),
      ("invalidated", toString (hs.isInvalidated h))]

namespace Value

mutual

/-- **The description of a value.** `opened` tells which packed dictionaries were opened. -/
def describe (hs : Handles) (opened : Packed → Bool) : Value → String
  | null => "null"
  | bool b => toString b
  | number n => n.text
  | string s => Text.quoted s
  | binary bytes => "<" ++ toString bytes.length ++ " bytes>"
  | dict ⟨_, entries⟩ =>
    "\x7b" ++ commaSeparated ((Dict.inKeyOrder (describeMembers hs opened entries)).map fun e =>
      Text.quoted e.1 ++ ": " ++ e.2) ++ "\x7d"
  | list items => "[" ++ commaSeparated (describeItems hs opened items) ++ "]"
  | object ref => "Object(" ++ ref.typeName ++ ")"
  | packed payload => payload.describe (opened payload)
  | resource h => hs.describe h

def describeMembers (hs : Handles) (opened : Packed → Bool) :
    List (String × Value) → List (String × String)
  | [] => []
  | (name, value) :: rest => (name, describe hs opened value) :: describeMembers hs opened rest

def describeItems (hs : Handles) (opened : Packed → Bool) : List Value → List String
  | [] => []
  | item :: rest => describe hs opened item :: describeItems hs opened rest

end

/-- The packed dictionaries that lie open in a value, outside other packed dictionaries and at most
so many levels deep. -/
def payloads : Nat → Value → List Packed
  | 0, _ => []
  | levels + 1, v =>
    match v with
    | packed payload => [payload]
    | dict d => d.entries.flatMap fun e => payloads levels e.2
    | list items => items.flatMap (payloads levels)
    | _ => []

end Value

/-- **The description of a dictionary.** -/
def Dict.describe (hs : Handles) (opened : Packed → Bool) (d : Dict Value) : String :=
  Value.describe hs opened (.dict d)

end ResourceTree
