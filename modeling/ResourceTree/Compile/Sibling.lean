import ResourceTree.Compile.Action

/-!
# Extended roots — entries that root objects contribute

Root objects are asked in key order for entries to add beside themselves. An entry whose name is
taken is refused; one that is added is also published under its name.

* `offerOf`, `addSibling`, **`extended`**.
-/

namespace ResourceTree

namespace Compile

variable {σ : Type} [ObjectClass σ]

/-- The entries that an object offers. -/
def offerOf (name : String) (ref : ObjectRef) : Action σ (Option (Dict Value)) := do
  match (← Action.store).object? ref with
  | none => return none
  | some object =>
    match ObjectClass.siblings object ref with
    | .ok offer => return offer
    | .error panic => throw ⟨panic, Step.render [.member name]⟩

/-- Adds one offered entry of the object at `owner`, if its name is free. -/
def addSibling (owner : String) (root : Dict Value) (entry : String × Value) :
    Action σ (Dict Value) := do
  if root.contains entry.1 then
    Action.record ⟨.resolution, "/" ++ entry.1,
      s!"sibling resource of '{owner}' collides with an existing entry"⟩
    return root
  else
    Action.publish entry.1 entry.2
    return root.set entry.1 entry.2

/-- Adds the entries that one root entry offers. -/
def addSiblings (root : Dict Value) (entry : String × Value) : Action σ (Dict Value) := do
  match entry.2 with
  | .object ref =>
    match ← offerOf entry.1 ref with
    | some offer => offer.sorted.foldlM (addSibling entry.1) root
    | none => return root
  | _ => return root

/-- **Adds the entries that root objects contribute.** -/
def extended (root : Dict Value) : Action σ (Dict Value) :=
  root.sorted.foldlM addSiblings root

end Compile

end ResourceTree
