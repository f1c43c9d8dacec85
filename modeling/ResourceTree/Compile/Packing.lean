import ResourceTree.Reserved
import ResourceTree.Value.Convert

/-!
# Packing — whether a compiled tree is to be compressed

A `compress` member anywhere in a tree asks for compression when it reads as true. At the root it
also refuses it: without one, or with one that reads neither way, the tree is compressed. The
members are taken out of the tree.

* `flag?`; `requestsPacking`: whether something below the root asks;
* `withoutFlags`, `asksInside`, **`stripFlags`**.
-/

namespace ResourceTree

namespace Compile

/-- What a `compress` member reads as. -/
def flag? (hs : Handles) (v : Value) : Option Bool := (hs.convert v .bool).bind Value.asBool?

/-- Whether a member with a name asks for compression by its name and value. -/
def asks (hs : Handles) (name : String) (v : Value) : Bool :=
  name = Reserved.compress && flag? hs v = some true

mutual

/-- Whether a `compress` member inside the value asks, or one inside its members, `compress`
members included. -/
def valueRequests (hs : Handles) : Value → Bool
  | .dict ⟨_, entries⟩ => membersRequest hs entries
  | .list items => itemsRequest hs items
  | _ => false

def membersRequest (hs : Handles) : List (String × Value) → Bool
  | [] => false
  | (name, v) :: rest => asks hs name v || valueRequests hs v || membersRequest hs rest

def itemsRequest (hs : Handles) : List Value → Bool
  | [] => false
  | item :: rest => valueRequests hs item || itemsRequest hs rest

end

/-- Whether something below the root asks for compression. -/
def requestsPacking (hs : Handles) (root : Dict Value) : Bool :=
  root.entries.any fun entry => entry.1 ≠ Reserved.compress && valueRequests hs entry.2

mutual

/-- The value without `compress` members. -/
def withoutFlags : Value → Value
  | .dict ⟨_, entries⟩ => .dict (Dict.ofValues (membersWithoutFlags entries))
  | .list items => .list (itemsWithoutFlags items)
  | v => v

def membersWithoutFlags : List (String × Value) → List (String × Value)
  | [] => []
  | (name, v) :: rest =>
    if name = Reserved.compress then membersWithoutFlags rest
    else (name, withoutFlags v) :: membersWithoutFlags rest

def itemsWithoutFlags : List Value → List Value
  | [] => []
  | item :: rest => withoutFlags item :: itemsWithoutFlags rest

end

mutual

/-- Whether a `compress` member that is taken out of the value asks. -/
def asksInside (hs : Handles) : Value → Bool
  | .dict ⟨_, entries⟩ => membersAsk hs entries
  | .list items => itemsAsk hs items
  | _ => false

def membersAsk (hs : Handles) : List (String × Value) → Bool
  | [] => false
  | (name, v) :: rest =>
    (if name = Reserved.compress then flag? hs v = some true else asksInside hs v) ||
      membersAsk hs rest

def itemsAsk (hs : Handles) : List Value → Bool
  | [] => false
  | item :: rest => asksInside hs item || itemsAsk hs rest

end

/-- **The tree without `compress` members, and whether it is to be compressed.** -/
def stripFlags (hs : Handles) (root : Dict Value) : Dict Value × Bool :=
  let rootFlag := ((root.get? Reserved.compress).bind (flag? hs)).getD true
  (Dict.ofValues (membersWithoutFlags root.entries), rootFlag || membersAsk hs root.entries)

end Compile

end ResourceTree
