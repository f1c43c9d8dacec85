import ResourceTree.Compile.Anchor
import ResourceTree.Json.Source

/-!
# Expanded trees — named values, templates and imports

A dictionary lies over its imports and its template, and is visited again in the form that this
gives. Its `values` are named values for it and for all below. A string marked as a value becomes
the named value, visited in turn; a string marked as a reference becomes a handle. Revisits inside
one another stop at a fixed depth.

* `revisitLimit`, and what is said of revisits beyond it;
* `layer`: one dictionary over another, with their named values side by side;
* `loadImport`, `applyImports`, `applyTemplate`, **`expandDict`**;
* **`expanded`**: the rewrite.
-/

namespace ResourceTree

namespace Compile

variable {σ : Type}

/-- Revisits may lie so deep inside one another. -/
def revisitLimit : Nat := 32

/-- What is said of a dictionary that would be laid over others too deep inside revisits. -/
def directiveTooDeep : String := s!"templates or imports nested deeper than {revisitLimit} levels"

/-- What is said of a named value that would be looked up too deep inside revisits. -/
def valueTooDeep (path : String) : String :=
  s!"value '{path}' nested deeper than {revisitLimit} levels"

/-- The dictionary lies over others. -/
def hasDirective (d : Dict Value) : Bool :=
  d.contains Reserved.import_ || d.contains Reserved.template

/-- The named values that a dictionary brings along. -/
def ownValues (hs : Handles) (d : Dict Value) : Option (Dict Value) :=
  (d.get? Reserved.values).bind hs.toDict?

/-- **One dictionary over another.** The named values of both are laid over each other one level
deep, so that none is lost. -/
def layer (hs : Handles) (base overrides : Dict Value) : Dict Value :=
  let merged := Dict.merged base overrides
  match ownValues hs base, ownValues hs overrides with
  | some lower, some upper => merged.set Reserved.values (.dict (Dict.merged lower upper))
  | _, _ => merged

/-- The dictionary of an import target, anchored where its file lies. -/
def loadImport (place : Place) (target : Value) : Action σ (Option (Dict Value)) := do
  match target.asString? with
  | none => do
    Action.addError place .resolution
      s!"import target must be a string, found {target.kind.name}"
    return none
  | some text => do
    let raw := (Reserved.afterMark? Reserved.fileMark text).getD text
    let setting ← read
    let loaded ← match ← Action.resolveFile setting.basePath raw with
      | .error e => pure (.error e)
      | .ok path => pure (do
          let source ← setting.files.readText path
          return (← Json.parseSource source, path))
    match (loaded : Except ResourceError (Dict Value × Path)) with
    | .ok (d, path) => some <$> (anchored ((path.parent?).getD ⟨"/"⟩)).run 0 d
    | .error e => do
      let kind := match e with
        | .parse .. => Diagnostic.Kind.parse
        | _ => Diagnostic.Kind.resolution
      Action.addError place kind s!"cannot import '{raw}': {e.message}"
      return none

/-- The targets that an import names. -/
def importTargets : Value → List Value
  | .list items => items
  | v => [v]

/-- Lays a dictionary over its imports, those that come first on top. -/
def applyImports (place : Place) (d : Dict Value) : Action σ (Dict Value) :=
  match d.get? Reserved.import_ with
  | none => return d
  | some target =>
    (importTargets target).foldlM (fun local_ target => do
      match ← loadImport place target with
      | some imported => return layer (← Action.handles) imported local_
      | none => return local_) (d.erase Reserved.import_)

/-- The dictionary that a template name stands for: among the named values that the dictionary
itself brings along, or else among those in scope. -/
def findTemplate (hs : Handles) (place : Place) (d : Dict Value) (name : String) :
    Option (Dict Value) :=
  let found := ((ownValues hs d).bind fun values => hs.findPath values name).or
    (place.lookup hs name)
  found.bind hs.toDict?

/-- Lays a dictionary over its template. -/
def applyTemplate (place : Place) (d : Dict Value) : Action σ (Dict Value) := do
  match d.get? Reserved.template with
  | none => return d
  | some template => do
    let local_ := d.erase Reserved.template
    match template.asString? with
    | none => do
      Action.addError place .resolution
        s!"template name must be a string, found {template.kind.name}"
      return local_
    | some name => do
      let hs ← Action.handles
      match findTemplate hs place local_ name with
      | some under => return layer hs under local_
      | none => do
        Action.addError place .resolution s!"undefined template '{name}'"
        return local_

/-- **A dictionary over its imports and its template.** -/
def expandDict (place : Place) (d : Dict Value) : Action σ (Dict Value) := do
  applyTemplate place (← applyImports place d)

/-- What becomes of a string marked as a value. -/
def expandValue (place : Place) (path : String) : Action σ (OtherPlan σ) := do
  if revisitLimit ≤ place.nesting then
    Action.addError place .resolution (valueTooDeep path)
    return .drop
  else
    match place.lookup (← Action.handles) path with
    | some v => return .revisit v
    | none => do
      Action.addError place .resolution s!"undefined value '{path}'"
      return .drop

/-- What becomes of a string. -/
def expandString (place : Place) (text : String) : Action σ (OtherPlan σ) :=
  match Reserved.afterMark? Reserved.valueMark text with
  | some path => expandValue place path
  | none =>
    match Reserved.afterMark? Reserved.refMark text with
    | some name => do return .keep (.resource (← Action.reference name))
    | none => return .keep (.string text)

/-- **Expands named values, templates and imports.** -/
def expanded : Rewrite σ where
  onDict place d := do
    if hasDirective d then
      if revisitLimit ≤ place.nesting then
        Action.addError place .resolution directiveTooDeep
        return .drop
      else return .revisit (← expandDict place d)
    else
      return .members [Reserved.values] (ownValues (← Action.handles) d) fun out =>
        return some (.dict out)
  onOther place v :=
    match v with
    | .string text => expandString place text
    | _ => return .elements
  fansOut place := place.isRoot

end Compile

end ResourceTree
