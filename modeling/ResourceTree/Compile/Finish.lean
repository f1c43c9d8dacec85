import ResourceTree.Compile.Rewrite

/-!
# Finished trees — objects finished after what they depend on

A worker that begins an object first sees to the objects it depends on, then finishes it. The
object counts as finished from then on, even where its callback panicked. An object that is met
again while it is being finished depends on itself.

* `dependencyObject?`, `visitDependencies`, `selfDependency`;
* **`finishObject`**: one object and all it depends on; **`finished`**: the rewrite.
-/

namespace ResourceTree

namespace Compile

variable {σ : Type} [ObjectClass σ]

/-- The object that a dependency is, or that its handle stands for now. -/
def dependencyObject? (hs : Handles) : Value → Option ObjectRef
  | .object ref => some ref
  | .resource h => (hs.value h).asObject?
  | _ => none

/-- Changes the finish table. -/
def withTable {α : Type} (f : FinishTable → α × FinishTable) : Action σ α :=
  modifyGet fun p =>
    let (result, finishing) := f p.finishing
    (result, { p with finishing })

/-- Runs the callback that finishes an object. -/
def finishAlone (place : Place) (ref : ObjectRef) : Action σ Unit := do
  let s ← Action.store
  if let some object := s.object? ref then
    match ObjectClass.finish s object with
    | .ok object =>
      modify fun p => { p with store := p.store.setObject ref object, finished := p.finished.push ref }
    | .error (.error e) => Action.addError place .instantiation e.message
    | .error (.panic p) => Action.crash place p

/-- The diagnostic for an object that is met again while it is being finished. -/
def selfDependency (place : Place) (ref : ObjectRef) : Diagnostic :=
  ⟨.dependency, place.pathText, s!"'{ref.typeName}' depends on itself"⟩

/-- Visits those of an object's dependencies that are objects. -/
def visitDependencies (visit : ObjectRef → Action σ Unit) (dependencies : List Value) :
    Action σ Unit :=
  dependencies.forM fun dependency => do
    if let some other := dependencyObject? (← Action.handles) dependency then visit other

/-- **Finishes an object after all it depends on.** Objects being finished differ from each other,
so as many levels as there are objects are enough. -/
def finishObject (place : Place) : Nat → ObjectRef → Action σ Unit
  | 0, _ => return ()
  | levels + 1, ref => do
    let s ← Action.store
    match (s.object? ref).bind ObjectClass.dependencies with
    | none => return ()
    | some dependencies =>
      match ← withTable fun t => t.start ref.id place.worker with
      | .finished => return ()
      | .cycle => Action.record (selfDependency place ref)
      | .wait => withTable fun t => ((), t.stopWaiting place.worker)
      | .begun =>
        let work : Action σ Unit := do
          visitDependencies (finishObject place levels) dependencies
          finishAlone place ref
        work.andFinally (withTable fun t => ((), t.finish ref.id))

/-- **Finishes the objects of a tree.** -/
def finished : Rewrite σ where
  onDict _ _ := return .members [] none fun out => return some (.dict out)
  onOther place v :=
    match v with
    | .object ref => do
      finishObject place ((← Action.store).objects.size + 1) ref
      return .keep v
    | _ => return .elements
  fansOut place := place.isRoot

end Compile

end ResourceTree
