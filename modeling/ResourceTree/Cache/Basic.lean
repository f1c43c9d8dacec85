import ResourceTree.Cache.Event
import ResourceTree.Object.Use
import ResourceTree.Reserved
import ResourceTree.Tasks.Signal
import ResourceTree.Value.Describe
import ResourceTree.Value.Equality

/-!
# The cache — named resources, loaded when asked for

A cache serves a compiled dictionary. A name that was asked for has an entry: the newest handle
given out, which the cache itself does not keep in use; the state of its load; the signal that
whoever waits for the load waits on; the generation, which grows with every invalidation; and the
one load in flight.

* `LoadState`, `LoadTask`, `Entry`, `Load`, `Cache`;
* `Turn`, `CacheM`: the steps of a cache on a store, and the loads they put in flight;
* `claimTask`, `enter`, `await`, `redirect`, `spawn`;
* the atomic steps **`getResource`**, **`invalidate`**, **`setResources`**, **`clear`**;
* `flushed?`: whether a handle has finished loading.
-/

namespace ResourceTree

inductive LoadState where
  | unloaded
  | loading
  | loaded
deriving DecidableEq, Repr, Inhabited

namespace LoadState

def isLoading : LoadState → Bool
  | loading => true
  | _ => false

def isDone : LoadState → Bool
  | loaded => true
  | _ => false

def title : LoadState → String
  | unloaded => "Unloaded"
  | loading => "Loading"
  | loaded => "Loaded"

def ofLabel? : String → Option LoadState
  | "unloaded" => some unloaded
  | "loading" => some loading
  | "loaded" => some loaded
  | _ => none

end LoadState

/-- A load, with the generation of the entry that it started from. -/
structure LoadTask where
  id : Nat
  generation : Nat
deriving DecidableEq, Repr, Inhabited

/-- What a cache knows about a name. -/
structure Entry where
  /-- The newest handle given out; its slot may be gone. -/
  handle : Option Handle
  state : LoadState
  /-- The number of the signal that is set when the load completes. -/
  pending : Option Nat
  generation : Nat
  task : Option LoadTask
  loadedOnce : Bool

def Entry.new : Entry := ⟨none, .unloaded, none, 0, none, false⟩

/-- A load in flight. -/
structure Load where
  name : String
  task : LoadTask
deriving DecidableEq, Repr

/-- A cache; `id` is its number among the owners of handles. -/
structure Cache (σ : Type) where
  id : Nat
  registry : Registry σ
  resources : Dict Value
  entries : Dict Entry
  nextTask : Nat
  events : EventBuffer
  /-- How many loads were put in flight and have not ended. -/
  outstanding : Nat
  signals : Array Signal

/-- A cache at work on a store, and the loads it put in flight, oldest first. -/
structure Turn (σ : Type) where
  store : Store σ
  cache : Cache σ
  spawned : List Load

/-- A step of a cache. -/
abbrev CacheM (σ : Type) := StateM (Turn σ)

namespace Cache

variable {σ : Type}

def new (id : Nat) (registry : Registry σ) : Cache σ :=
  ⟨id, registry, ∅, ∅, 0, .empty, 0, #[]⟩

def loadState (c : Cache σ) (name : String) : LoadState :=
  ((c.entries.get? name).map (·.state)).getD .unloaded

def contains (c : Cache σ) (name : String) : Bool := c.resources.contains name

def isLoading (c : Cache σ) : Bool := 0 < c.outstanding

def drainEvents (c : Cache σ) : List Event × Cache σ :=
  let (events, buffer) := c.events.drain
  (events, { c with events := buffer })

/-- The description of a cache; `id` is how its number is shown. -/
def describe (c : Cache σ) (id : String) : String :=
  describeRecord "ResourceCache"
    [("id", id), ("resources", toString c.resources.size), ("entries", toString c.entries.size),
      ("outstanding", toString c.outstanding)]

/-! ## Parts of steps -/

def modifyCache (f : Cache σ → Cache σ) : CacheM σ Unit :=
  modify fun t => { t with cache := f t.cache }

def modifyHandles (f : Handles → Handles) : CacheM σ Unit :=
  modify fun t => { t with store := t.store.mapHandles f }

def setEntry (name : String) (e : Entry) : CacheM σ Unit :=
  modifyCache fun c => { c with entries := c.entries.insert name e }

def removeEntry (name : String) : CacheM σ Unit :=
  modifyCache fun c => { c with entries := c.entries.erase name }

def lookup? (name : String) : CacheM σ (Option Entry) := do
  return (← get).cache.entries.get? name

/-- The handle of an entry, if its slot is still there. -/
def liveHandle? (e : Entry) : CacheM σ (Option Handle) := do
  return e.handle.bind (← get).store.upgrade?

def setOwner (h : Handle) (owner : Option Nat) : CacheM σ Unit :=
  modifyHandles fun hs => hs.setOwner h owner

/-- A new slot, which nothing refers to yet. -/
def newHandle (name : String) (value : Value) : CacheM σ Handle :=
  modifyGet fun t =>
    let (h, store) := t.store.newHandle name value
    (h, { t with store })

/-- A new slot that this cache is loading. -/
def newPlaceholder (name : String) : CacheM σ Handle := do
  let h ← newHandle name .null
  setOwner h (some (← get).cache.id)
  return h

/-- The signal that an entry has, or a new one. -/
def pendingSignal (e : Entry) : CacheM σ Nat :=
  match e.pending with
  | some signal => return signal
  | none => modifyGet fun t =>
    (t.cache.signals.size,
      { t with cache := { t.cache with signals := t.cache.signals.push .unset } })

/-- Sets the signal that an entry has. -/
def setSignal (pending : Option Nat) : CacheM σ Unit :=
  match pending with
  | some signal => modifyCache fun c => { c with signals := c.signals.modify signal Signal.set }
  | none => return ()

/-- Gives a name a new load, unless one is in flight. -/
def claimTask (name : String) : CacheM σ (Option LoadTask) := do
  modifyCache fun c => { c with nextTask := c.nextTask + 1 }
  match ← lookup? name with
  | none => return none
  | some e =>
    if e.task.isSome then return none
    else
      let task : LoadTask := ⟨(← get).cache.nextTask, e.generation⟩
      setEntry name { e with task := some task }
      return some task

/-- Sets an entry, and gives its name a new load unless one is in flight. -/
def enter (name : String) (e : Entry) : CacheM σ (Option LoadTask) := do
  setEntry name e
  claimTask name

/-- Has a name wait for its load behind the given handle. -/
def await (name : String) (e : Entry) (h : Handle) : CacheM σ (Option LoadTask) := do
  let signal ← pendingSignal e
  enter name { e with handle := some h, state := .loading, pending := some signal }

/-- Puts a handle behind the one in use, if there is one; that one is no longer being loaded. -/
def redirect (live : Option Handle) (newer : Handle) : CacheM σ Unit := do
  if let some old := live then
    setOwner old none
    modifyHandles fun hs => hs.invalidate old newer

/-- Puts a load in flight. -/
def spawn (name : String) (task : Option LoadTask) : CacheM σ Unit :=
  match task with
  | none => return ()
  | some task => modify fun t =>
    { t with
      cache := { t.cache with outstanding := t.cache.outstanding + 1 }
      spawned := t.spawned ++ [⟨name, task⟩] }

/-! ## Steps -/

/-- **The handle of a name.** One that is still in use is given out again; otherwise there is a new
one, and a load is started if none is in flight. -/
def getResource (name : String) : CacheM σ Handle := do
  let e := (← lookup? name).getD .new
  match ← liveHandle? e with
  | some h => return h
  | none => do
    let h ← newPlaceholder name
    spawn name (← await name e h)
    return h

/-- Puts a new handle behind the one in use, and starts a load if none is in flight. A name that
has neither is forgotten. -/
def invalidateEntry (name : String) : CacheM σ (Option LoadTask) := do
  match ← lookup? name with
  | none => return none
  | some e => do
    let live ← liveHandle? e
    if live.isNone && e.task.isNone then
      removeEntry name
      return none
    else
      let h ← newPlaceholder name
      redirect live h
      await name { e with generation := e.generation + 1 } h

/-- **Loads a name again.** -/
def invalidate (name : String) : CacheM σ Unit := do
  spawn name (← invalidateEntry name)

/-- Serves a name from a compiled value from now on; nothing happens when the name is reserved or
the value is what is served already. -/
def setResource (name : String) (value : Value) : CacheM σ (Option LoadTask) := do
  let served := (← get).cache.resources.get? name
  if Reserved.isReserved name || served.any (· == value) then return none
  else
    modifyCache fun c => { c with resources := c.resources.set name value }
    invalidateEntry name

/-- **Serves compiled entries from now on**, and loads what is in use again. -/
def setResources (d : Dict Value) : CacheM σ Unit := do
  let restarts ← d.entries.mapM fun entry => do
    return (entry.1, ← setResource entry.1 entry.2)
  for restart in restarts do
    spawn restart.1 restart.2

/-- Forgets one entry: its handle is no longer being loaded, and whoever waits may go on. -/
def forget (e : Entry) : CacheM σ Unit := do
  if let some h ← liveHandle? e then
    let t ← get
    if t.store.handles.owner? h = some t.cache.id then
      setOwner h none
  setSignal e.pending

/-- **Drops every compiled entry and every handle**; handles that are in use keep their values. -/
def clear : CacheM σ Unit := do
  modifyCache fun c => { c with resources := ∅ }
  for entry in (← get).cache.entries.entries do
    forget entry.2
  modifyCache fun c => { c with entries := ∅ }

/-- The newest handle of a chain, once this cache is not loading it. -/
def flushed? (c : Cache σ) (hs : Handles) (h : Handle) : Option Handle :=
  let latest := hs.latest h
  if hs.owner? latest = some c.id then none else some latest

end Cache

end ResourceTree
