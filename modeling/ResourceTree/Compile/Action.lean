import ResourceTree.Compile.FinishTable
import ResourceTree.Compile.Place
import ResourceTree.Files.Access
import ResourceTree.Object.Class
import ResourceTree.Reserved

/-!
# Actions — the steps of a compile

A compile reads a fixed setting and moves a progress forward. A callback that panics breaks an
action off; what was done before stays done.

* `Setting`, `FanOut`: what is fixed; `Progress`: what changes; `Crash`: a panic and its place;
* `Action`, `Action.run`, `Action.recover`;
* `addError`, `recordFile`, `resolveFile`, `reference`, `publish`, `nextWorker`;
* **`Loading.perform`**: a load with its requests carried out.
-/

namespace ResourceTree

/-- How the entries of a dictionary are spread over tasks: so many tasks at a time, and the order
in which the tasks of a batch, numbered from zero, come to run. A batch is known by its workers,
so that every batch may have an order of its own; each of its tasks runs once. -/
structure FanOut where
  batch : Nat
  order : List Nat → List Nat := fun workers => List.range workers.length
  complete : ∀ workers, (order workers).Perm (List.range workers.length) := by
    exact fun _ => List.Perm.refl _

/-- What is fixed during a compile. -/
structure Setting (σ : Type) where
  base : Dict Value
  basePath : Path
  files : FileView
  registry : Registry σ
  fanOut : Option FanOut

namespace Setting

variable {σ : Type}

/-- The dictionary that every object is loaded on top of. -/
def baseOf (basePath : Path) (debug : Bool) : Dict Value :=
  Dict.ofValues [(Reserved.basePath, .string basePath.text), (Reserved.debug, .bool debug)]

def of (basePath : Path) (debug : Bool) (files : FileView) (registry : Registry σ)
    (fanOut : Option FanOut) : Setting σ :=
  ⟨baseOf basePath debug, basePath, files, registry, fanOut⟩

def isDebug (s : Setting σ) : Bool :=
  ((s.base.get? Reserved.debug).bind Value.asBool?).getD false

end Setting

/-- What changes during a compile. -/
structure Progress (σ : Type) where
  store : Store σ
  references : Dict Handle
  /-- The files that were looked at, in order. -/
  files : List Path
  errors : Array Diagnostic
  finishing : FinishTable
  nextWorker : Nat
  /-- The objects that were finished, in order. -/
  finished : Array ObjectRef

def Progress.initial {σ : Type} (store : Store σ) : Progress σ :=
  ⟨store, ∅, [], #[], .empty, 0, #[]⟩

/-- A panic, and the path of the place where it arose. -/
structure Crash where
  panic : Panic
  path : String

/-- A step of a compile. -/
abbrev Action (σ : Type) := ReaderT (Setting σ) (ExceptT Crash (StateM (Progress σ)))

namespace Action

variable {σ α : Type}

/-- The outcome of an action and the progress it leaves. -/
def run (action : Action σ α) (setting : Setting σ) (progress : Progress σ) :
    Except Crash α × Progress σ := action setting progress

/-- Goes on after a panic; what was done before it stays done. -/
def recover (action : Action σ α) (handler : Crash → Action σ α) : Action σ α :=
  fun setting progress =>
    match action.run setting progress with
    | (.ok result, progress) => (.ok result, progress)
    | (.error crash, progress) => (handler crash).run setting progress

/-- Runs `after` whether or not the action breaks off. -/
def andFinally (action : Action σ α) (after : Action σ Unit) : Action σ α := do
  let result ← action.recover fun crash => do
    after
    throw crash
  after
  return result

def crash (place : Place) (panic : Panic) : Action σ α := throw ⟨panic, place.pathText⟩

/-- The store as it is now. -/
def store : Action σ (Store σ) := do return (← get).store

def handles : Action σ Handles := do return (← store).handles

/-- Changes the store. -/
def withStore (f : Store σ → α × Store σ) : Action σ α :=
  modifyGet fun p =>
    let (result, store) := f p.store
    (result, { p with store })

/-! ## Diagnostics and files -/

def record (d : Diagnostic) : Action σ Unit :=
  modify fun p => { p with errors := p.errors.push d }

/-- Records a diagnostic at a place. -/
def addError (place : Place) (kind : Diagnostic.Kind) (message : String) : Action σ Unit :=
  record ⟨kind, place.pathText, message⟩

/-- The diagnostics so far, which are taken away. -/
def takeErrors : Action σ (List Diagnostic) :=
  modifyGet fun p => (p.errors.toList, { p with errors := #[] })

/-- Records a file as looked at. -/
def recordFile (path : Path) : Action σ Unit :=
  modify fun p => { p with files := path.insertSorted p.files }

/-- The full path of an existing file, which is recorded. -/
def resolveFile (dir : Path) (raw : String) : Action σ (Except ResourceError Path) := do
  match (← read).files.canonicalize (dir.join raw) with
  | .error e => return .error e
  | .ok path => do
    recordFile path
    return .ok path

/-! ## References -/

/-- The one handle of a name in this compile. -/
def reference (name : String) : Action σ Handle :=
  modifyGet fun p =>
    match p.references.get? name with
    | some h => (h, p)
    | none =>
      let (h, store) := p.store.newHandle name .null
      (h, { p with store, references := p.references.insert name h })

/-- Gives the handle of a name its value. -/
def publish (name : String) (value : Value) : Action σ Unit :=
  modify fun p =>
    match p.references.get? name with
    | some h => { p with store := p.store.mapHandles fun hs => hs.setValue h value }
    | none =>
      let (h, store) := p.store.newHandle name value
      { p with store, references := p.references.insert name h }

/-- The number of a worker that walks a branch. -/
def nextWorker : Action σ Nat :=
  modifyGet fun p => (p.nextWorker, { p with nextWorker := p.nextWorker + 1 })

end Action

/-- **Carries out the requests of a load** at a place: diagnostics are recorded there, files are
looked for below the base path, and references are those of the compile. -/
def Loading.perform {σ α : Type} (place : Place) :
    Loading α → Action σ (Except ResourceError α)
  | .done result => return .ok result
  | .failed (.error e) => return .error e
  | .failed (.panic p) => Action.crash place p
  | .report message next => do
    Action.addError place .instantiation message
    next.perform place
  | .file path next => do
    let raw := (Reserved.afterMark? Reserved.fileMark path).getD path
    match ← Action.resolveFile (← read).basePath raw with
    | .ok found => (next (some found)).perform place
    | .error e => do
      Action.addError place .resolution s!"missing file '{raw}': {e.message}"
      (next none).perform place
  | .reference name next => do
    let h ← Action.reference name
    (next h).perform place

end ResourceTree
