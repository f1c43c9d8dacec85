import ResourceTree.Dict
import ResourceTree.Object.Use

/-!
# Racks — handles that a user holds, and handles that it only knows

A held handle keeps its slot in use; a weak one does not, and may come to refer to nothing.

* `Rack`: `hold`, `holdWeakly`, `drop`, `labelsOf`;
* `upgrade?`: a weak handle as a held one, while its slot is there;
* `release`: drops what the rack does not keep in use.
-/

namespace ResourceTree

/-- Handles under labels. -/
structure Rack where
  held : Dict Handle
  weak : Dict (Option Handle)

namespace Rack

def empty : Rack := ⟨∅, ∅⟩

def hold (r : Rack) (label : String) (h : Handle) : Rack :=
  { r with held := r.held.insert label h }

/-- Keeps a handle without holding it; `none` refers to nothing from the start. -/
def holdWeakly (r : Rack) (label : String) (h : Option Handle) : Rack :=
  { r with weak := r.weak.insert label h }

/-- Gives up a held handle. -/
def drop (r : Rack) (label : String) : Bool × Rack :=
  (r.held.contains label, { r with held := r.held.erase label })

/-- The labels of held handles that are the same as the given one, in ascending order. -/
def labelsOf (r : Rack) (h : Handle) : List String :=
  (r.held.sorted.filter fun entry => entry.2 = h).map (·.1)

variable {σ : Type}

/-- A weak handle, while its slot is there. -/
def upgrade? (r : Rack) (s : Store σ) (label : String) : Option Handle :=
  ((r.weak.get? label).join).bind s.upgrade?

/-- Drops what neither the rack nor `extra` keeps in use. -/
def release [ObjectClass σ] (r : Rack) (extra : List Link) (s : Store σ) : Store σ :=
  s.dropUnused (r.held.entries.flatMap (fun entry => entry.2.links) ++ extra)

end Rack

end ResourceTree
