import ResourceTree.Proofs.Cache.Effect
import ResourceTree.Proofs.Store.Frees

/-!
# A cache in use

A program asks a cache for names, changes what the cache serves, and gives up handles, in any order
and any number of times. Between its steps come those of the loads in flight: a load reads the
compiled value of its name, asks for what making it live needs, and completes.

* `Flight`: a load in flight, with what is left of making its value live;
* `System`: a cache, its store, the loads in flight, and what the program holds;
* `System.Step`, **`System.Reachable`**: every order of steps.

Three fields of a system only record what happened, and no step looks at them: `issued`, `made` and
`epoch`.
-/

namespace ResourceTree

/-- A load in flight. -/
structure Flight (σ : Type) where
  load : Load
  /-- How many times the cache had been cleared when the load started. -/
  epoch : Nat
  /-- What is left of making the value live, once it was read. -/
  work : Option (Conversion σ Value)

/-- The load has read its value, and this is left to do. -/
def Flight.working {σ : Type} (f : Flight σ) (rest : Conversion σ Value) : Flight σ :=
  { f with work := some rest }

/-- A handle that the cache gave out. -/
structure Issue where
  name : String
  handle : Handle
  epoch : Nat

/-- A cache in use by a program. -/
structure System (σ : Type) where
  store : Store σ
  cache : Cache σ
  flights : List (Flight σ)
  /-- The slots and objects that the program holds, as often as it holds them. -/
  held : List Link
  /-- The handles that were given out so far, to the program and to loads. -/
  issued : List Issue
  /-- The objects that loads have made so far. -/
  made : List (ObjectRef × σ)
  /-- How many times the cache was cleared. -/
  epoch : Nat

namespace System

variable {σ α : Type}

/-- A new cache. -/
def start (id : Nat) (registry : Registry σ) : System σ :=
  ⟨.empty, .new id registry, [], [], [], [], 0⟩

def turn (s : System σ) : Turn σ := ⟨s.store, s.cache, []⟩

/-- The system after a turn of its cache; loads that were put in flight have read nothing yet. -/
def after (s : System σ) (t : Turn σ) : System σ :=
  { s with
    store := t.store
    cache := t.cache
    flights := s.flights ++ t.spawned.map (⟨·, s.epoch, none⟩) }

/-- A step of the cache. -/
def act (s : System σ) (x : CacheM σ α) : System σ := s.after (x.run s.turn).2

/-- The handle that asking for a name gives. -/
def answer (s : System σ) (name : String) : Handle := ((Cache.getResource name).run s.turn).1

/-- Asks for a name. -/
def ask (s : System σ) (name : String) : System σ :=
  { s.act (Cache.getResource name) with issued := s.issued ++ [⟨name, s.answer name, s.epoch⟩] }

/-- The program asks for a name, and holds the handle. -/
def take (s : System σ) (name : String) : System σ :=
  { s.ask name with held := s.held ++ (s.answer name).links }

/-- The program clears the cache. -/
def cleared (s : System σ) : System σ := act { s with epoch := s.epoch + 1 } Cache.clear

/-- The system where one of the loads in flight has gone on. -/
def goOn (s : System σ) (before after : List (Flight σ)) (f : Flight σ) : System σ :=
  { s with flights := before ++ f :: after }

variable [ObjectClass σ]

/-- The reference that keeping an object gives. -/
def reference (s : System σ) (item : σ) : ObjectRef := ((Cache.keepObject item).run s.turn).1

/-- Keeps an object. -/
def keep (s : System σ) (item : σ) : System σ :=
  { s.act (Cache.keepObject item) with made := s.made ++ [(s.reference item, item)] }

/-- What is held by the program and by the compiled values. -/
def roots (s : System σ) : List Link := s.held ++ (Value.dict s.cache.resources).links

/-- A step of the program, or of one load. What nothing holds is dropped at any time, and what only
a load holds may be. -/
inductive Step (s : System σ) : System σ → Prop where
  | getResource (name : String) : Step s (s.take name)
  | invalidate (name : String) : Step s (s.act (Cache.invalidate name))
  | setResources (d : Dict Value) : Step s (s.act (Cache.setResources d))
  | clear : Step s s.cleared
  | drainEvents : Step s { s with cache := s.cache.drainEvents.2 }
  /-- The program makes a handle of its own. -/
  | newHandle (name : String) (value : Value) :
      Step s { s with
        store := (s.store.newHandle name value).2
        held := s.held ++ (s.store.newHandle name value).1.links }
  /-- The program holds once more what it has found in a value. -/
  | hold (g : Handle) (hthere : (s.store.handles.slot? g).isSome) :
      Step s { s with held := s.held ++ g.links }
  | drop (link : Link) : Step s { s with held := s.held.erase link }
  | free (store : Store σ) (hfrees : s.store.Frees s.roots store) : Step s { s with store := store }
  /-- A load reads the compiled value of its name. -/
  | read (before after : List (Flight σ)) (f : Flight σ) (hf : s.flights = before ++ f :: after)
      (hwork : f.work = none) :
      Step s (s.goOn before after (f.working (s.cache.conversion f.load.name)))
  /-- A load asks for a handle. -/
  | request (before after : List (Flight σ)) (f : Flight σ) (name : String)
      (next : Handle → Conversion σ Value) (hf : s.flights = before ++ f :: after)
      (hwork : f.work = some (.handle name next)) :
      Step s ((s.goOn before after (f.working (next (s.answer name)))).ask name)
  /-- A load makes an object. -/
  | make (before after : List (Flight σ)) (f : Flight σ) (item : σ)
      (next : ObjectRef → Conversion σ Value) (hf : s.flights = before ++ f :: after)
      (hwork : f.work = some (.object item next)) :
      Step s ((s.goOn before after (f.working (next (s.reference item)))).keep item)
  /-- A load that has nothing left to ask for completes. -/
  | complete (before after : List (Flight σ)) (f : Flight σ) (rest : Conversion σ Value)
      (outcome : Except Failure Value) (hf : s.flights = before ++ f :: after)
      (hwork : f.work = some rest) (houtcome : rest.outcome? = some outcome) :
      Step s (act { s with flights := before ++ after }
        (Cache.completeLoad f.load outcome >>= fun _ => Cache.endLoad))

/-- The states that a new cache may come to, whatever the order of steps. -/
inductive Reachable : System σ → Prop where
  | start (id : Nat) (registry : Registry σ) : Reachable (start id registry)
  | step {s s' : System σ} (hs : Reachable s) (hstep : Step s s') : Reachable s'

theorem Reachable.invariant {P : System σ → Prop} {s : System σ} (hs : Reachable s)
    (hstart : ∀ id registry, P (.start id registry)) (hstep : ∀ s s', P s → Step s s' → P s') :
    P s := by
  induction hs with
  | start id registry => exact hstart id registry
  | step _ hs ih => exact hstep _ _ ih hs

end System

end ResourceTree
