import ResourceTree.Value.Basic

/-!
# Exchanges — changes that give back what was there

A change that reports the old value of a name finds the entry once, and changes it where it stands.

* `Dict.exchange`: sets a name;
* `Dict.take`: removes a name;
* **`Dict.put`**: sets a name, where null removes it.
-/

universe u

namespace ResourceTree

namespace Dict

variable {α : Type u}

/-- The old value of a name that is present, and the entries with a new one. -/
def exchangeFlat (name : String) (value : α) :
    List (String × α) → Option (α × List (String × α))
  | [] => none
  | entry :: rest =>
    if name = entry.1 then some (entry.2, (entry.1, value) :: rest)
    else (exchangeFlat name value rest).map fun found => (found.1, entry :: found.2)

/-- The value of a name that is present, and the entries without it; the last one takes the free
place. -/
def takeFlat (name : String) : List (String × α) → Option (α × List (String × α))
  | [] => none
  | entry :: rest =>
    if name = entry.1 then
      match rest.getLast? with
      | none => some (entry.2, [])
      | some last => some (entry.2, last :: rest.dropLast)
    else (takeFlat name rest).map fun found => (found.1, entry :: found.2)

/-- Sets the value of a name and gives the old one. -/
def exchange (d : Dict α) (name : String) (value : α) : Option α × Dict α :=
  match d.storage with
  | .indexed => (d.entries.lookup name, ⟨.indexed, insertSorted name value d.entries⟩)
  | .flat =>
    match exchangeFlat name value d.entries with
    | some (old, entries) => (some old, ⟨.flat, entries⟩)
    | none =>
      let entries := d.entries ++ [(name, value)]
      (none, if entries.length < flatLimit then ⟨.flat, entries⟩ else ⟨.indexed, inKeyOrder entries⟩)

/-- Removes a name and gives its value. -/
def take (d : Dict α) (name : String) : Option α × Dict α :=
  match d.storage with
  | .indexed => (d.entries.lookup name, ⟨.indexed, eraseSorted name d.entries⟩)
  | .flat =>
    match takeFlat name d.entries with
    | some (old, entries) => (some old, ⟨.flat, entries⟩)
    | none => (none, d)

/-- **Sets a name to a value and gives the old one**; null removes the name. -/
def put (d : Dict Value) (name : String) (value : Value) : Option Value × Dict Value :=
  match value with
  | .null => d.take name
  | value => d.exchange name value

end Dict

end ResourceTree
