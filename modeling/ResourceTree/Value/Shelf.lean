import ResourceTree.Codec.Packed
import ResourceTree.Value.Describe

/-!
# Shelves — named dictionaries that are looked at and changed

Looking at a packed dictionary opens it, which its description shows from then on.

* `Shelf`: `dict`, `put`, `look`, `describe`.
-/

namespace ResourceTree

/-- Dictionaries by name, and the packed dictionaries that were opened. -/
structure Shelf where
  dicts : Dict (Dict Value)
  opened : List Packed

namespace Shelf

def empty : Shelf := ⟨∅, []⟩

/-- The dictionary with a name; one that is not there is empty. -/
def dict (s : Shelf) (name : String) : Dict Value := (s.dicts.get? name).getD ∅

def put (s : Shelf) (name : String) (d : Dict Value) : Shelf :=
  { s with dicts := s.dicts.insert name d }

/-- Opens what lies open in values, so many levels deep. What cannot be opened stays closed. -/
def look (s : Shelf) (levels : Nat) (values : List Value) : Shelf :=
  let seen := (values.flatMap (Value.payloads levels)).filter fun p => p.unpack.isOk
  { s with opened := seen ++ s.opened }

def describe (s : Shelf) (hs : Handles) (name : String) : String :=
  (s.dict name).describe hs fun p => s.opened.contains p

end Shelf

end ResourceTree
