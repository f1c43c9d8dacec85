import ResourceTree.Object.Class

/-!
# Use — which slots and objects are still in use

A slot or an object is in use while something holds it: the user of the store, the value or the
replacement of a slot that is in use, or an object that is in use. What nothing holds is dropped,
which may free what it held. A ring of slots that hold each other stays in use.

* `Link`, `Value.links`: what a value holds;
* `Store.held`: what is held by all that is there;
* **`Store.dropUnused`**.
-/

namespace ResourceTree

/-- A slot or an object, by its number. -/
inductive Link where
  | slot (id : Nat)
  | object (id : Nat)
deriving DecidableEq, Repr

/-- What a handle holds. -/
def Handle.links (h : Handle) : List Link := h.slot.toList.map Link.slot

mutual

/-- What a value holds. -/
def Value.links : Value → List Link
  | .dict ⟨_, entries⟩ => memberLinks entries
  | .list items => itemLinks items
  | .object ref => [.object ref.id]
  | .resource h => h.links
  | _ => []

def memberLinks : List (String × Value) → List Link
  | [] => []
  | (_, value) :: rest => value.links ++ memberLinks rest

def itemLinks : List Value → List Link
  | [] => []
  | item :: rest => item.links ++ itemLinks rest

end

/-- What a slot holds. -/
def Slot.links (s : Slot) : List Link :=
  s.value.links ++ (s.replacement.toList.flatMap Handle.links)

namespace Store

variable {σ : Type}

/-- Keeps the entries of an array whose numbers are in use. -/
def keepUsed {α : Type} (link : Nat → Link) (used : List Link) (entries : Array (Option α)) :
    Array (Option α) :=
  entries.mapIdx fun i entry => if used.contains (link i) then entry else none

/-- How many slots and objects are there. -/
def population (s : Store σ) : Nat :=
  s.handles.slots.toList.countP Option.isSome + s.objects.toList.countP Option.isSome

/-- The handle, if its slot is still there. -/
def upgrade? (s : Store σ) (h : Handle) : Option Handle :=
  if (s.handles.slot? h).isSome then some h else none

variable [ObjectClass σ]

/-- What is held by the slots and objects that are there. -/
def held (s : Store σ) : List Link :=
  (s.handles.slots.toList.flatMap fun slot => (slot.map Slot.links).getD []) ++
    s.objects.toList.flatMap fun object =>
      (object.map fun o => (ObjectClass.holds o).flatMap Value.links).getD []

/-- Drops once what nothing holds. -/
def dropOnce (kept : List Link) (s : Store σ) : Store σ :=
  let used := kept ++ s.held
  { handles := ⟨keepUsed Link.slot used s.handles.slots⟩
    objects := keepUsed Link.object used s.objects }

/-- Drops, up to so many times, what nothing holds. -/
def dropTimes (kept : List Link) : Nat → Store σ → Store σ
  | 0, s => s
  | times + 1, s =>
    let next := s.dropOnce kept
    if next.population = s.population then s else dropTimes kept times next

/-- **Drops what is no longer in use**, where the user keeps the given slots and objects. Every
round but the last frees something, so as many rounds as there are entries are enough. -/
def dropUnused (kept : List Link) (s : Store σ) : Store σ := s.dropTimes kept s.population

end Store

end ResourceTree
