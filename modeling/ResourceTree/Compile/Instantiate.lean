import ResourceTree.Compile.Rewrite

/-!
# Live trees — dictionaries with a type become objects

Members come first, so that an object loads after those inside it. An object is loaded on top of
the base dictionary. One that stands at a root entry is published under the name of that entry.

* `loadObject`, **`instantiated`**.
-/

namespace ResourceTree

namespace Compile

variable {σ : Type} [ObjectClass σ]

/-- Loads a fresh object from a dictionary; one that fails is dropped. -/
def loadObject (place : Place) (fresh : σ) (members : Dict Value) :
    Action σ (Option Value) := do
  let source := Dict.merged (← read).base members
  match ← (ObjectClass.loadFromSource fresh source).perform place with
  | .error e => do
    Action.addError place .instantiation e.message
    return none
  | .ok object => do
    let ref ← Action.withStore fun s => s.addObject (ObjectClass.typeName object) object
    if let some name := place.rootKey? then
      Action.publish name (.object ref)
    return some (.object ref)

/-- The object that a dictionary describes, or the dictionary when it names no type. -/
def instantiate (place : Place) (members : Dict Value) : Action σ (Option Value) := do
  if place.isRoot then return some (.dict members)
  else
    match members.get? Reserved.type with
    | none => return some (.dict members)
    | some (.string typeName) =>
      match (← read).registry.create? typeName with
      | some fresh => loadObject place fresh members
      | none => do
        Action.addError place .resolution s!"no class registered for type '{typeName}'"
        return none
    | some v => do
      Action.addError place .resolution s!"'type' must be a string, found {v.kind.name}"
      return none

/-- **Turns dictionaries with a type into objects.** -/
def instantiated : Rewrite σ where
  onDict place _ := return .members [] none (instantiate place)
  onOther _ _ := return .elements
  fansOut place := place.isRoot

end Compile

end ResourceTree
