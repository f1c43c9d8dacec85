/-!
# Dictionaries — finite maps from names

A dictionary keeps its entries in one of two ways. A small one is a flat run in the order of
insertion, where a removed entry is replaced by the last one; from sixteen entries on it is indexed
and keeps its entries in key order, and stays so when it shrinks.

* `Dict`, `Storage`;
* `get?`, `insert`, `erase`, `size`, `keys`, `sorted`;
* `insertSorted`, `inKeyOrder`: entries in key order.
-/

universe u

namespace ResourceTree

/-- How a dictionary keeps its entries. -/
inductive Storage where
  | flat
  | indexed
deriving DecidableEq, Repr

/-- A finite map from names. -/
structure Dict (α : Type u) where
  storage : Storage
  entries : List (String × α)

namespace Dict

variable {α : Type u}

/-- A flat dictionary holds fewer entries than this. -/
def flatLimit : Nat := 16

/-! ## Runs of entries -/

/-- Sets a name in entries that are in key order. -/
def insertSorted (name : String) (value : α) : List (String × α) → List (String × α)
  | [] => [(name, value)]
  | entry :: rest =>
    if name = entry.1 then (name, value) :: rest
    else if name < entry.1 then (name, value) :: entry :: rest
    else entry :: insertSorted name value rest

/-- Entries with different names in key order. -/
def inKeyOrder (entries : List (String × α)) : List (String × α) :=
  entries.foldr (fun entry rest => insertSorted entry.1 entry.2 rest) []

/-- Replaces the value of a name that is present. -/
def replace (name : String) (value : α) : List (String × α) → List (String × α)
  | [] => []
  | entry :: rest =>
    if name = entry.1 then (entry.1, value) :: rest else entry :: replace name value rest

/-- Removes a name; the last entry takes the free place. -/
def eraseFlat (name : String) : List (String × α) → List (String × α)
  | [] => []
  | entry :: rest =>
    if name = entry.1 then
      match rest.getLast? with
      | none => []
      | some last => last :: rest.dropLast
    else entry :: eraseFlat name rest

/-- Removes a name and closes the gap. -/
def eraseSorted (name : String) (entries : List (String × α)) : List (String × α) :=
  entries.filter fun entry => entry.1 ≠ name

/-! ## The operations -/

def empty : Dict α := ⟨.flat, []⟩

instance : EmptyCollection (Dict α) := ⟨empty⟩

instance : Inhabited (Dict α) := ⟨empty⟩

def size (d : Dict α) : Nat := d.entries.length

def isEmpty (d : Dict α) : Bool := d.entries.isEmpty

/-- The value of a name. -/
def get? (d : Dict α) (name : String) : Option α := d.entries.lookup name

def contains (d : Dict α) (name : String) : Bool := (d.get? name).isSome

/-- Sets the value of a name. A flat dictionary that is full becomes indexed. -/
def insert (d : Dict α) (name : String) (value : α) : Dict α :=
  match d.storage with
  | .indexed => ⟨.indexed, insertSorted name value d.entries⟩
  | .flat =>
    if d.contains name then ⟨.flat, replace name value d.entries⟩
    else
      let entries := d.entries ++ [(name, value)]
      if entries.length < flatLimit then ⟨.flat, entries⟩ else ⟨.indexed, inKeyOrder entries⟩

/-- Removes a name. -/
def erase (d : Dict α) (name : String) : Dict α :=
  match d.storage with
  | .indexed => ⟨.indexed, eraseSorted name d.entries⟩
  | .flat => ⟨.flat, eraseFlat name d.entries⟩

/-- The entries in key order. -/
def sorted (d : Dict α) : List (String × α) := inKeyOrder d.entries

/-- The names in ascending order. -/
def keys (d : Dict α) : List String := d.sorted.map (·.1)

end Dict

end ResourceTree
