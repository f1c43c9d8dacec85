import ResourceTree.Cache.Basic
import ResourceTree.Codec.Packed

/-!
# Loads — compiled values in their live form

A load reads the compiled value of its name and makes it live: packed dictionaries are opened,
dictionaries with a type become objects, and handles become this cache's handles of the same names.
What making a value live asks for, handles and places for objects, are requests with answers, so
other steps may come between them. When the load completes, its outcome is put behind the handle in
use; an outcome that an invalidation has overtaken is loaded once more instead.

* `Conversion`, `toLive`, `dictToLive`, `Cache.conversion`: what a load asks for;
* `Conversion.perform`, **`loadValue`**;
* **`completeLoad`**.
-/

namespace ResourceTree

/-- The requests of a conversion, and its outcome. -/
inductive Conversion (σ α : Type) where
  | done (result : α)
  | failed (failure : Failure)
  /-- Asks for the handle of a name. -/
  | handle (name : String) (next : Handle → Conversion σ α)
  /-- Asks for a reference to a new object. -/
  | object (object : σ) (next : ObjectRef → Conversion σ α)

namespace Conversion

variable {σ α β : Type}

def bind : Conversion σ α → (α → Conversion σ β) → Conversion σ β
  | done result, f => f result
  | failed failure, _ => failed failure
  | handle name next, f => handle name fun answer => bind (next answer) f
  | object item next, f => object item fun answer => bind (next answer) f

instance : Monad (Conversion σ) where
  pure := done
  bind := bind

/-- The outcome, once nothing is left to ask for. -/
def outcome? : Conversion σ α → Option (Except Failure α)
  | done result => some (.ok result)
  | failed failure => some (.error failure)
  | handle .. => none
  | object .. => none

variable [ObjectClass σ]

/-- Compiled values may be nested so deep. -/
def depthLimit : Nat := 256

def tooDeep : ResourceError := .decode "resource nesting too deep"

/-- Makes the object that a live dictionary with a type describes. -/
def objectToLive (registry : Registry σ) (typeName : String) (live : Dict Value) :
    Conversion σ Value :=
  match registry.tryCreate typeName with
  | .error e => failed (.error e)
  | .ok fresh =>
    match ObjectClass.loadFromCache fresh live with
    | .error failure => failed failure
    | .ok item => object item fun ref => done (.object ref)

/-- Makes a dictionary live, where members are made live by `child`. -/
def dictToLive (registry : Registry σ) (child : Value → Conversion σ Value) (d : Dict Value) :
    Conversion σ Value := do
  let live ← d.entries.foldlM (fun (out : Dict Value) entry => do
    return out.set entry.1 (← child entry.2)) ∅
  match (live.get? Reserved.type).bind Value.asString? with
  | none => return .dict live
  | some typeName => objectToLive registry typeName live

/-- **Makes a compiled value live**, where so many levels are left. -/
def toLive (registry : Registry σ) : Nat → Value → Conversion σ Value
  | 0, _ => failed (.error tooDeep)
  | levels + 1, v =>
    match v with
    | .packed payload =>
      match payload.unpack with
      | .error fault => failed (.error fault.toError)
      | .ok d => dictToLive registry (toLive registry levels) d
    | .dict d => dictToLive registry (toLive registry levels) d
    | .list items => do return .list (← items.mapM (toLive registry levels))
    | .resource h => handle h.name fun answer => done (.resource answer)
    | v => return v

/-- Makes the value that was read for a name live. -/
def ofStored (registry : Registry σ) (name : String) : Option Value → Conversion σ Value
  | some v => toLive registry (depthLimit + 1) v
  | none => failed (.error (.notFound name))

end Conversion

namespace Cache

variable {σ α : Type} [ObjectClass σ]

/-- What a load of a name has to do, once it has read the compiled value. -/
def conversion (c : Cache σ) (name : String) : Conversion σ Value :=
  .ofStored c.registry name (c.resources.get? name)

/-- Puts an object into the store. -/
def keepObject (item : σ) : CacheM σ ObjectRef :=
  modifyGet fun t =>
    let (ref, store) := t.store.addObject (ObjectClass.typeName item) item
    (ref, { t with store })

/-- Answers the requests of a conversion; what was done before a failure stays done. -/
def perform : Conversion σ α → CacheM σ (Except Failure α)
  | .done result => return .ok result
  | .failed failure => return .error failure
  | .handle name next => do perform (next (← getResource name))
  | .object item next => do perform (next (← keepObject item))

/-- **The live form of the compiled value of a name.** -/
def loadValue (name : String) : CacheM σ (Except Failure Value) := do
  perform ((← get).cache.conversion name)

/-- The error that a failed load amounts to. -/
def failureError : Failure → ResourceError
  | .error e => e
  | .panic _ => .other "load task panicked"

/-- The event of a completed load, and the value it gives its handle. -/
def outcomeOf (name : String) (again : Bool) : Except Failure Value → Value × Event
  | .ok v => (v, if again then .reloaded name else .loaded name)
  | .error failure => (.null, .failed name (failureError failure).message)

/-- Ends a load that an invalidation has overtaken: it starts once more, unless nobody holds a
handle. -/
def retryLoad (name : String) (e : Entry) : CacheM σ Unit := do
  if (← liveHandle? e).isNone then
    removeEntry name
    setSignal e.pending
  else
    spawn name (← enter name { e with task := none })

/-- Puts the outcome of a load behind the handle in use. A name whose handle nobody holds is
forgotten. -/
def deliver (name : String) (e : Entry) (outcome : Except Failure Value) : CacheM σ Unit := do
  let (value, event) := outcomeOf name e.loadedOnce outcome
  let current ← liveHandle? e
  let h ← newHandle name value
  redirect current h
  modifyCache fun c => { c with events := c.events.push event }
  if current.isSome then
    setEntry name
      { e with handle := some h, state := .loaded, task := none, loadedOnce := true, pending := none }
  else removeEntry name
  setSignal e.pending

/-- **Completes a load.** A load that its entry does not hold has no effect. -/
def completeLoad (load : Load) (outcome : Except Failure Value) : CacheM σ Unit := do
  match ← lookup? load.name with
  | none => return ()
  | some e =>
    if e.task = some load.task then
      if e.generation = load.task.generation then deliver load.name e outcome
      else retryLoad load.name e
    else return ()

/-- Ends a load, whatever came of it. -/
def endLoad : CacheM σ Unit :=
  modifyCache fun c => { c with outstanding := c.outstanding - 1 }

end Cache

end ResourceTree
