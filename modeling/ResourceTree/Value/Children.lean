import ResourceTree.Value.Convert

/-!
# Children — the members and elements of a value

A dictionary and a packed dictionary have named children, a list has indexed ones, and a handle has
those of the value it stands for.

* `Handles.innermost?`: what a handle stands for in the end, through handles that hold handles;
* `hasNamedChildren`, `hasIndexedChildren`;
* `namedChild?`, `indexedChild?`, `childCount`, `childNames`.
-/

namespace ResourceTree

namespace Handles

/-- Reads through at most so many handles; `none` when what is left is still a handle. -/
def innermostWithin (hs : Handles) : Nat → Value → Option Value
  | 0, .resource _ => none
  | steps + 1, .resource h => hs.innermostWithin steps (hs.value h)
  | _, v => some v

/-- What a value stands for in the end. `none` when its handles lead back to themselves: more
handles one behind the other than there are slots cannot all differ. -/
def innermost? (hs : Handles) (v : Value) : Option Value :=
  hs.innermostWithin (hs.slots.size + 1) v

/-- Whether the value has named children; `none` when its handles lead back to themselves. -/
def hasNamedChildren (hs : Handles) (v : Value) : Option Bool :=
  (hs.innermost? v).map fun plain =>
    match plain with
    | .dict _ | .packed _ => true
    | _ => false

/-- Whether the value has indexed children; `none` when its handles lead back to themselves. -/
def hasIndexedChildren (hs : Handles) (v : Value) : Option Bool :=
  (hs.innermost? v).map fun plain =>
    match plain with
    | .list _ => true
    | _ => false

/-- The child with a name. -/
def namedChild? (hs : Handles) (v : Value) (name : String) : Option Value :=
  match hs.plain? v with
  | some (.dict d) => d.get? name
  | some (.packed payload) => payload.unpack.toOption.bind (·.get? name)
  | _ => none

/-- The child at an index. -/
def indexedChild? (hs : Handles) (v : Value) (index : Nat) : Option Value :=
  match hs.plain? v with
  | some (.list items) => items[index]?
  | _ => none

/-- The number of children. -/
def childCount (hs : Handles) (v : Value) : Nat :=
  match hs.plain? v with
  | some (.dict d) => d.size
  | some (.list items) => items.length
  | some (.packed payload) => ((payload.unpack.toOption).map Dict.size).getD 0
  | _ => 0

/-- The names under which the value has children when it is read as a dictionary. -/
def childNames (hs : Handles) (v : Value) : List String :=
  ((hs.toDict? v).map Dict.keys).getD []

end Handles

end ResourceTree
