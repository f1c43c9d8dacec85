import ResourceTree.Cache.Load
import ResourceTree.Store.Rack

/-!
# Sessions — caches at work for one user

Several caches share one store. Their loads wait in one line and run one at a time. The user keeps
handles under labels of its own; what neither the user nor anything else in use holds is dropped
after every step.

* `Session`, `QueuedLoad`;
* `step`: a step of one cache; `keep`, `drop`: the handles of the user; `release`;
* `runNext`, **`runAll`**: the loads in the line; `settle`: unless they are held back;
* `flush`.
-/

namespace ResourceTree

/-- A load that waits, and the number of its cache. -/
structure QueuedLoad where
  cache : Nat
  load : Load

/-- Caches, the store they share, and the handles that their user keeps. -/
structure Session (σ : Type) where
  store : Store σ
  caches : List (Cache σ)
  queue : List QueuedLoad
  /-- Whether loads are held back. -/
  holding : Bool
  kept : Rack
  /-- What the user holds besides. -/
  pinned : List Link

namespace Session

variable {σ : Type} [ObjectClass σ]

def new (registries : List (Registry σ)) : Session σ :=
  ⟨.empty, registries.mapIdx fun i registry => .new i registry, [], false, .empty, []⟩

/-- What the compiled dictionaries hold, and what is pinned. -/
def served (s : Session σ) : List Link :=
  s.pinned ++ s.caches.flatMap fun c => (Value.dict c.resources).links

/-- Drops what is no longer in use; `extra` is held as well. -/
def release (s : Session σ) (extra : List Link) : Session σ :=
  { s with store := s.kept.release (s.served ++ extra) s.store }

/-- A step of one cache; loads it puts in flight join the line. -/
def step {α : Type} [Inhabited α] (s : Session σ) (cache : Nat) (action : CacheM σ α) :
    α × Session σ :=
  match s.caches[cache]? with
  | none => (default, s)
  | some c =>
    let (result, turn) := action.run ⟨s.store, c, []⟩
    (result,
      { s with
        store := turn.store
        caches := s.caches.set cache turn.cache
        queue := s.queue ++ turn.spawned.map (⟨cache, ·⟩) })

/-- Takes the events of a cache. -/
def drainEvents (s : Session σ) (cache : Nat) : List Event × Session σ :=
  s.step cache fun t =>
    let (events, cache) := t.cache.drainEvents
    (events, { t with cache })

/-- Keeps a handle under a label. -/
def keep (s : Session σ) (label : String) (h : Handle) : Session σ :=
  { s with kept := s.kept.hold label h }

/-- Gives up the handle under a label. -/
def drop (s : Session σ) (label : String) : Bool × Session σ :=
  let (found, kept) := s.kept.drop label
  (found, { s with kept })

instance : Inhabited (Except Failure Value) := ⟨.ok .null⟩

/-- What the outcome of a load holds. -/
def outcomeLinks : Except Failure Value → List Link
  | .ok v => v.links
  | .error _ => []

/-- Runs a load: its value is made live, what that left behind is dropped, and it completes. -/
def runLoad (s : Session σ) (queued : QueuedLoad) : Session σ :=
  let (outcome, s) := s.step queued.cache (Cache.loadValue queued.load.name)
  let s := s.release (outcomeLinks outcome)
  let (_, s) := s.step queued.cache (do
    Cache.completeLoad queued.load outcome
    Cache.endLoad)
  s.release []

/-- Runs the load at the head of the line. -/
def runNext (s : Session σ) : Session σ :=
  match s.queue with
  | [] => s
  | queued :: rest => runLoad { s with queue := rest } queued

/-- Runs loads, those that they add included, at most so many. -/
def runMany : Nat → Session σ → Session σ
  | 0, s => s
  | count + 1, s => if s.queue.isEmpty then s else runMany count s.runNext

/-- So many loads are run at most before an answer. -/
def patience : Nat := 1000000

/-- **Runs loads until none is left.** -/
def runAll (s : Session σ) : Session σ := runMany patience s

/-- Drops what a step left behind, and runs the loads unless they are held back. -/
def settle (s : Session σ) : Session σ :=
  let s := s.release []
  if s.holding then s else s.runAll

/-- The newest handle of a chain, after the loads were run. -/
def flush (s : Session σ) (cache : Nat) (h : Handle) : Handle × Session σ :=
  let s := { s with holding := false }.runAll
  let hs := s.store.handles
  let flushed := (s.caches[cache]?).bind fun c => c.flushed? hs h
  (flushed.getD (hs.latest h), s)

end Session

end ResourceTree
