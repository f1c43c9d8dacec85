import ResourceTree.Codec.Packed
import ResourceTree.Compile.Rewrite

/-!
# Saved trees — objects as packed dictionaries

An object is replaced by its saved dictionary with its type name, packed; objects inside the saved
dictionary are saved the same way.

* `packSaved`, **`saved`**.
-/

namespace ResourceTree

namespace Compile

variable {σ : Type} [ObjectClass σ]

/-- Records that an object cannot be saved. -/
def cannotSave (place : Place) (ref : ObjectRef) (e : ResourceError) : Action σ Unit :=
  Action.addError place .instantiation s!"cannot save '{ref.typeName}': {e.message}"

/-- Packs the saved members of an object, with its type name. -/
def packSaved (place : Place) (ref : ObjectRef) (members : Dict Value) :
    Action σ (Option Value) := do
  match Packed.ofDict (members.set Reserved.type (.string ref.typeName)) with
  | .ok payload => return some (.packed payload)
  | .error fault => do
    cannotSave place ref fault.toError
    return none

/-- Saves an object. -/
def saveObject (place : Place) (ref : ObjectRef) : Action σ (OtherPlan σ) := do
  match (← Action.store).object? ref with
  | none => return .drop
  | some object =>
    match ObjectClass.saveToCache object with
    | .ok members => return .unfold members (packSaved place ref)
    | .error (.error e) => do
      cannotSave place ref e
      return .drop
    | .error (.panic p) => Action.crash place p

/-- **Saves the objects of a tree.** -/
def saved : Rewrite σ where
  onDict _ _ := return .members [] none fun out => return some (.dict out)
  onOther place v :=
    match v with
    | .object ref => saveObject place ref
    | _ => return .elements

end Compile

end ResourceTree
