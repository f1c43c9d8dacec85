import ResourceTree.Error
import ResourceTree.Files.Path
import ResourceTree.Store.Basic
import ResourceTree.Value.Describe

/-!
# Object classes — what a program that owns objects has to tell

An object is loaded from a source dictionary or from its saved form, saved again, finished when all
it depends on is finished, and may contribute further entries beside itself. Whatever an object
asks for while it loads from source is a request with an answer, so a load is a tree of requests:
it has no other way to reach files, references or diagnostics.

* `Failure`: a callback answers with an error, or it panics;
* `Loading`: requests of a load, and its outcome;
* **`ObjectClass`**: the callbacks of the objects of one type of contents;
* `Registry`: fresh objects by type name.
-/

namespace ResourceTree

/-- A callback broke off without an answer. -/
structure Panic where
  message : String
deriving DecidableEq, Repr, Inhabited

/-- Why a callback gave no result. -/
inductive Failure where
  | error (e : ResourceError)
  | panic (p : Panic)
deriving DecidableEq, Repr

/-- The requests of a load from source, and its outcome. -/
inductive Loading (α : Type) where
  | done (result : α)
  | failed (failure : Failure)
  /-- Records a diagnostic and goes on. -/
  | report (message : String) (next : Loading α)
  /-- Asks for the full path of a file that the object depends on. -/
  | file (path : String) (next : Option Path → Loading α)
  /-- Asks for the handle of a name. -/
  | reference (name : String) (next : Handle → Loading α)

namespace Loading

variable {α β : Type}

def bind : Loading α → (α → Loading β) → Loading β
  | done result, f => f result
  | failed failure, _ => failed failure
  | report message next, f => report message (bind next f)
  | file path next, f => file path fun answer => bind (next answer) f
  | reference name next, f => reference name fun answer => bind (next answer) f

instance : Monad Loading where
  pure := done
  bind := bind

/-- Records a diagnostic. -/
def addError (message : String) : Loading Unit := report message (done ())

/-- The full path of a file, or nothing where it is missing. -/
def addFile (path : String) : Loading (Option Path) := file path done

/-- The handle of a name. -/
def addReference (name : String) : Loading Handle := reference name done

/-- The outcome of a callback that asks for nothing. -/
def ofExcept : Except Failure α → Loading α
  | .ok result => done result
  | .error failure => failed failure

end Loading

/-- The callbacks of objects that hold a `σ`. -/
class ObjectClass (σ : Type) where
  typeName : σ → String
  loadFromSource : σ → Dict Value → Loading σ
  loadFromCache : σ → Dict Value → Except Failure σ
  saveToCache : σ → Except Failure (Dict Value)
  /-- What has to be finished first; `none` when the object needs no finishing. -/
  dependencies : σ → Option (List Value)
  /-- Finishes the object; it may look at the store for what it depends on. -/
  finish : Store σ → σ → Except Failure σ
  /-- The entries that the object adds beside itself; it is given its own reference. -/
  siblings : σ → ObjectRef → Except Panic (Option (Dict Value))
  /-- The values that the object keeps in use. -/
  holds : σ → List Value

/-- Fresh objects by type name; the last registration of a name counts. -/
structure Registry (σ : Type) where
  fresh : Dict σ

namespace Registry

variable {σ : Type}

def empty : Registry σ := ⟨∅⟩

def register (r : Registry σ) (typeName : String) (object : σ) : Registry σ :=
  ⟨r.fresh.insert typeName object⟩

def create? (r : Registry σ) (typeName : String) : Option σ := r.fresh.get? typeName

def tryCreate (r : Registry σ) (typeName : String) : Except ResourceError σ :=
  match r.create? typeName with
  | some object => .ok object
  | none => .error (.unknownType typeName)

def contains (r : Registry σ) (typeName : String) : Bool := r.fresh.contains typeName

def typeNames (r : Registry σ) : List String := r.fresh.keys

/-- The description of a registry: its names, quoted, in ascending order. -/
def describe (r : Registry σ) : String :=
  describeRecord "ClassFactory"
    [("types", "[" ++ commaSeparated (r.typeNames.map Text.quoted) ++ "]")]

end Registry

end ResourceTree
