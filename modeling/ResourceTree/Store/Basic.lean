import ResourceTree.Value.Basic

/-!
# Stores — the slots behind handles and the objects behind references

A handle has a slot with a value, an optional replacement, and an optional owner: the number of the
cache that is loading it. Following replacements leads to the latest handle, whose value all
holders of the chain see.

* `Slot`, `Handles`, `Store`;
* `Handles.new`, `setValue`, `setOwner`, `invalidate`;
* **`Handles.latest`**, `ownValue`, **`value`**;
* `Store.addObject`, `object?`, `setObject`.
-/

namespace ResourceTree

/-- What a handle refers to. -/
structure Slot where
  name : String
  value : Value
  replacement : Option Handle
  owner : Option Nat
deriving Inhabited

/-- The slots that were ever made; a slot that is no longer in use is gone. -/
structure Handles where
  slots : Array (Option Slot)
deriving Inhabited

namespace Handles

def empty : Handles := ⟨#[]⟩

def slot? (hs : Handles) (h : Handle) : Option Slot :=
  match h.slot with
  | some i => (hs.slots[i]?).join
  | none => none

/-- Changes the slot of a handle, if it is there. -/
def modify (hs : Handles) (h : Handle) (f : Slot → Slot) : Handles :=
  match h.slot with
  | some i => ⟨hs.slots.modify i (Option.map f)⟩
  | none => hs

/-- A new slot with a value of its own. -/
def new (hs : Handles) (name : String) (value : Value) : Handle × Handles :=
  (⟨name, some hs.slots.size⟩, ⟨hs.slots.push (some ⟨name, value, none, none⟩)⟩)

/-- A new slot that waits for its value. -/
def placeholder (hs : Handles) (name : String) : Handle × Handles := hs.new name .null

def replacement? (hs : Handles) (h : Handle) : Option Handle := (hs.slot? h).bind (·.replacement)

def isInvalidated (hs : Handles) (h : Handle) : Bool := (hs.replacement? h).isSome

def owner? (hs : Handles) (h : Handle) : Option Nat := (hs.slot? h).bind (·.owner)

/-- The value in the slot of the handle itself. -/
def ownValue (hs : Handles) (h : Handle) : Value := ((hs.slot? h).map (·.value)).getD .null

/-- The handle that so many replacements lead to, fewer where the chain ends. -/
def follow (hs : Handles) : Nat → Handle → Handle
  | 0, h => h
  | steps + 1, h =>
    match hs.replacement? h with
    | some next => hs.follow steps next
    | none => h

/-- **The newest handle of a chain.** A chain that ends has fewer replacements than there are
slots. -/
def latest (hs : Handles) (h : Handle) : Handle := hs.follow hs.slots.size h

/-- **The value that holders of a handle see.** -/
def value (hs : Handles) (h : Handle) : Value := hs.ownValue (hs.latest h)

def setValue (hs : Handles) (h : Handle) (value : Value) : Handles :=
  hs.modify h fun slot => { slot with value }

def setOwner (hs : Handles) (h : Handle) (owner : Option Nat) : Handles :=
  hs.modify h fun slot => { slot with owner }

/-- Puts `newer` behind a handle, unless its chain already ends at the handle. -/
def invalidate (hs : Handles) (h newer : Handle) : Handles :=
  if (hs.latest newer).slot = h.slot then hs
  else hs.modify h fun slot => { slot with replacement := some newer }

end Handles

/-- The handles and the objects of one program; `σ` is what an object holds. -/
structure Store (σ : Type) where
  handles : Handles
  objects : Array (Option σ)

namespace Store

variable {σ : Type}

def empty : Store σ := ⟨.empty, #[]⟩

def object? (s : Store σ) (ref : ObjectRef) : Option σ := (s.objects[ref.id]?).join

/-- Keeps a new object. -/
def addObject (s : Store σ) (typeName : String) (object : σ) : ObjectRef × Store σ :=
  (⟨s.objects.size, typeName⟩, { s with objects := s.objects.push (some object) })

def setObject (s : Store σ) (ref : ObjectRef) (object : σ) : Store σ :=
  { s with objects := s.objects.modify ref.id (Option.map fun _ => object) }

/-- Makes a new slot. -/
def newHandle (s : Store σ) (name : String) (value : Value) : Handle × Store σ :=
  let (h, handles) := s.handles.new name value
  (h, { s with handles })

def mapHandles (s : Store σ) (f : Handles → Handles) : Store σ := { s with handles := f s.handles }

end Store

end ResourceTree
