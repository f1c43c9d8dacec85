import ResourceTree.Cache.Load
import ResourceTree.Proofs.Dict.Lookup
import ResourceTree.Proofs.Store.Chain

/-!
# What the steps of a cache do

Every step of a cache changes the entry of at most one name, or clears all of them.

* `Enters`: a name has an entry and a load in flight; `Waits`: it waits behind a new handle;
* `Gives`, `Restarts`, `Completes`: what asking for a name, invalidating it and completing its load
  do, case by case;
* **`run_getResource`**, **`run_invalidate`**, **`run_completeLoad`**, **`run_clear`**: the steps in
  these terms;
* **`run_setResources`**: compiled entries are served one by one; `run_update`: one of them.
-/

namespace ResourceTree

namespace Entry

/-- The handle of an entry is gone. -/
def Dead (e : Entry) (hs : Handles) : Prop := ∀ h, e.handle = some h → hs.slot? h = none

/-- The entry of a name that waits for its load behind a handle. -/
def waitingAt (e : Entry) (h : Handle) (signal : Nat) : Entry :=
  { e with handle := some h, state := .loading, pending := some signal }

/-- The entry of a name whose load gave it its value. -/
def loadedAt (e : Entry) (h : Handle) : Entry :=
  { e with handle := some h, state := .loaded, task := none, loadedOnce := true, pending := none }

end Entry

namespace Cache

variable {σ α β : Type} {t t' : Turn σ} {name : String} {e e' : Entry} {h : Handle}

/-! ## Parts of steps -/

theorem run_bind (x : CacheM σ α) (f : α → CacheM σ β) (t : Turn σ) :
    (x >>= f).run t = (f (x.run t).1).run (x.run t).2 := rfl

theorem run_pure (a : α) (t : Turn σ) : (pure a : CacheM σ α).run t = (a, t) := rfl

theorem run_modifyCache (f : Cache σ → Cache σ) (t : Turn σ) :
    (modifyCache f).run t = ((), { t with cache := f t.cache }) := rfl

theorem run_setEntry (name : String) (e : Entry) (t : Turn σ) : (setEntry name e).run t =
    ((), { t with cache := { t.cache with entries := t.cache.entries.insert name e } }) := rfl

theorem run_lookup? (name : String) (t : Turn σ) :
    (lookup? name).run t = (t.cache.entries.get? name, t) := rfl

theorem run_liveHandle? (e : Entry) (t : Turn σ) :
    (liveHandle? e).run t = (e.handle.bind t.store.upgrade?, t) := rfl

/-- The slots with a new one for a name that a cache with this number is loading. -/
def withPlaceholder (hs : Handles) (name : String) (id : Nat) : Handles :=
  (hs.new name .null).2.setOwner ⟨name, some hs.slots.size⟩ (some id)

theorem run_newPlaceholder (name : String) (t : Turn σ) : (newPlaceholder name).run t =
    (⟨name, some t.store.handles.slots.size⟩,
      { t with store := { t.store with
        handles := withPlaceholder t.store.handles name t.cache.id } }) := rfl

/-- The slots after the handle in use was put before a newer one. -/
def redirected (hs : Handles) (newer : Handle) : Option Handle → Handles
  | some old => (hs.setOwner old none).invalidate old newer
  | none => hs

theorem run_redirect (live : Option Handle) (newer : Handle) (t : Turn σ) :
    (redirect live newer).run t = ((), { t with store := { t.store with
      handles := redirected t.store.handles newer live } }) := by
  cases live <;> rfl

/-- The number of the signal that a name with this entry waits on. -/
def signalOf (c : Cache σ) (e : Entry) : Nat := e.pending.getD c.signals.size

/-- The signals, with one for a name with this entry. -/
def signalsFor (c : Cache σ) (e : Entry) : Array Signal :=
  if e.pending.isSome then c.signals else c.signals.push .unset

theorem run_pendingSignal (e : Entry) (t : Turn σ) : (pendingSignal e).run t =
    (t.cache.signalOf e, { t with cache := { t.cache with signals := t.cache.signalsFor e } }) := by
  cases he : e.pending <;> simp only [pendingSignal, signalOf, signalsFor, he] <;> rfl

/-- The signals after the one of an entry was set. -/
def signalled (signals : Array Signal) : Option Nat → Array Signal
  | some i => signals.modify i Signal.set
  | none => signals

theorem run_setSignal (pending : Option Nat) (t : Turn σ) : (setSignal pending).run t =
    ((), { t with cache := { t.cache with signals := signalled t.cache.signals pending } }) := by
  cases pending <;> rfl

/-- A name that has an entry is given a new load, unless one is in flight. -/
theorem run_claimTask (name : String) (t : Turn σ) : (claimTask name).run t =
    match t.cache.entries.get? name with
    | none => (none, { t with cache := { t.cache with nextTask := t.cache.nextTask + 1 } })
    | some e => if e.task.isSome then
        (none, { t with cache := { t.cache with nextTask := t.cache.nextTask + 1 } })
      else
        (some ⟨t.cache.nextTask + 1, e.generation⟩, { t with cache := { t.cache with
          entries := t.cache.entries.insert name
            { e with task := some ⟨t.cache.nextTask + 1, e.generation⟩ }
          nextTask := t.cache.nextTask + 1 } }) := by
  simp only [claimTask, run_bind, run_modifyCache, run_lookup?]
  cases t.cache.entries.get? name with
  | none => rfl
  | some e => cases htask : e.task <;> simp only [htask] <;> rfl

/-- The loads that start for a name. -/
def launched (name : String) (started : Option LoadTask) : List Load :=
  (started.map (Load.mk name)).toList

/-- A turn with loads that were put in flight besides. -/
def launch (t : Turn σ) (loads : List Load) : Turn σ :=
  { t with
    cache := { t.cache with outstanding := t.cache.outstanding + loads.length }
    spawned := t.spawned ++ loads }

theorem run_spawn (name : String) (started : Option LoadTask) (t : Turn σ) :
    (spawn name started).run t = ((), launch t (launched name started)) := by
  cases started with
  | none => simp only [launch, launched, Option.map_none, Option.toList_none, List.append_nil]; rfl
  | some task => rfl

/-! ## Setting an entry -/

/-- The turns differ in the entry of one name, which has a load in flight now, in the number of the
newest load, and in the load that started, if one did. -/
structure Enters (t t' : Turn σ) (name : String) (e e' : Entry) (started : Option LoadTask) :
    Prop where
  get? : ∀ n, t'.cache.entries.get? n = if n = name then some e' else t.cache.entries.get? n
  wellFormed : t.cache.entries.WellFormed → t'.cache.entries.WellFormed
  entry : e' = { e with task := e'.task }
  task : (e.task = none ∧ e'.task = started ∧
      started = some ⟨t.cache.nextTask + 1, e.generation⟩) ∨
    ((∃ task, e.task = some task) ∧ e'.task = e.task ∧ started = none)
  rest : t' = launch
    { t with cache := { t.cache with
      entries := t'.cache.entries, nextTask := t.cache.nextTask + 1 } }
    (launched name started)

namespace Enters

variable {started : Option LoadTask} (he : Enters t t' name e e' started)

include he

theorem store : t'.store = t.store := congrArg (·.store) he.rest

theorem spawned : t'.spawned = t.spawned ++ launched name started := congrArg (·.spawned) he.rest

theorem registry : t'.cache.registry = t.cache.registry := congrArg (·.cache.registry) he.rest

theorem resources : t'.cache.resources = t.cache.resources := congrArg (·.cache.resources) he.rest

theorem nextTask : t'.cache.nextTask = t.cache.nextTask + 1 := congrArg (·.cache.nextTask) he.rest

theorem signals : t'.cache.signals = t.cache.signals := congrArg (·.cache.signals) he.rest

theorem outstanding : t'.cache.outstanding = t.cache.outstanding + (launched name started).length :=
  congrArg (·.cache.outstanding) he.rest

end Enters

theorem enters_enter (name : String) (e : Entry) (t : Turn σ) :
    ∃ e' started,
      Enters t ((enter name e >>= spawn name).run t).2 name e e' started := by
  have hget : ∀ n, (t.cache.entries.insert name e).get? n =
      if n = name then some e else t.cache.entries.get? n := fun n => Dict.get?_insert
  cases htask : e.task with
  | some task =>
    have hrun : (enter name e).run t = (none, { t with cache := { t.cache with
        entries := t.cache.entries.insert name e, nextTask := t.cache.nextTask + 1 } }) := by
      simp only [enter, claimTask, run_bind, run_setEntry, run_modifyCache, run_lookup?,
        Dict.get?_insert_self, htask, Option.isSome_some, if_true]
      rfl
    rw [run_bind, hrun, run_spawn]
    exact ⟨e, none, hget, Dict.wellFormed_insert, rfl, .inr ⟨⟨task, htask⟩, rfl, rfl⟩, rfl⟩
  | none =>
    let task : LoadTask := ⟨t.cache.nextTask + 1, e.generation⟩
    have hrun : (enter name e).run t = (some task, { t with cache := { t.cache with
        entries := (t.cache.entries.insert name e).insert name { e with task := some task }
        nextTask := t.cache.nextTask + 1 } }) := by
      simp only [enter, claimTask, run_bind, run_setEntry, run_modifyCache, run_lookup?,
        Dict.get?_insert_self, htask, Option.isSome_none, Bool.false_eq_true, if_false]
      rfl
    have hget' : ∀ n, ((t.cache.entries.insert name e).insert name
        { e with task := some task }).get? n =
        if n = name then some { e with task := some task } else t.cache.entries.get? n := by
      intro n
      rw [Dict.get?_insert, hget]
      split_ifs <;> rfl
    rw [run_bind, hrun, run_spawn]
    exact ⟨{ e with task := some task }, some task, hget',
      fun hw => Dict.wellFormed_insert (Dict.wellFormed_insert hw), rfl,
      .inl ⟨htask, rfl, rfl⟩, rfl⟩

/-! ## What steps do -/

/-- The turn with other slots, and with a signal for a name with this entry. -/
def prepared (t : Turn σ) (hs : Handles) (e : Entry) : Turn σ :=
  { t with
    store := { t.store with handles := hs }
    cache := { t.cache with signals := t.cache.signalsFor e } }

/-- A name, whose entry was `e`, waits for its load behind a new handle, which replaces `old`. -/
structure Waits (t t' : Turn σ) (name : String) (e : Entry) (h : Handle) (old : Option Handle)
    (e' : Entry) (started : Option LoadTask) : Prop where
  adds : t.store.handles.Adds t'.store.handles h .null old
  named : h.name = name
  enters : Enters (prepared t t'.store.handles e) t' name (e.waitingAt h (t.cache.signalOf e)) e'
    started

namespace Waits

variable {old : Option Handle} {started : Option LoadTask} (hw : Waits t t' name e h old e' started)

include hw

theorem get? (n : String) :
    t'.cache.entries.get? n = if n = name then some e' else t.cache.entries.get? n :=
  hw.enters.get? n

theorem spawned : t'.spawned = t.spawned ++ launched name started := hw.enters.spawned

theorem registry : t'.cache.registry = t.cache.registry := hw.enters.registry

theorem resources : t'.cache.resources = t.cache.resources := hw.enters.resources

theorem outstanding : t'.cache.outstanding = t.cache.outstanding + (launched name started).length :=
  hw.enters.outstanding

theorem handle : e'.handle = some h := by rw [hw.enters.entry]; rfl

theorem state : e'.state = .loading := by rw [hw.enters.entry]; rfl

theorem generation : e'.generation = e.generation := by rw [hw.enters.entry]; rfl

end Waits

/-- What asking for a name does. -/
inductive Gives (name : String) (t : Turn σ) : Handle → Turn σ → Prop where
  /-- The handle in use is given out again. -/
  | again (e : Entry) (h : Handle) (hentry : t.cache.entries.get? name = some e)
      (hhandle : e.handle = some h) (hthere : (t.store.handles.slot? h).isSome) : Gives name t h t
  | waits (t' : Turn σ) (e : Entry) (h : Handle) (e' : Entry) (started : Option LoadTask)
      (hentry : e = (t.cache.entries.get? name).getD .new)
      (hdead : e.Dead t.store.handles) (hwaits : Waits t t' name e h none e' started) :
      Gives name t h t'

/-- What invalidating a name does. -/
inductive Restarts (name : String) (t : Turn σ) : Turn σ → Prop where
  | absent (hentry : t.cache.entries.get? name = none) : Restarts name t t
  /-- A name that nobody uses is forgotten. -/
  | unused (e : Entry) (hentry : t.cache.entries.get? name = some e) (htask : e.task = none)
      (hdead : e.Dead t.store.handles) :
      Restarts name t
        { t with cache := { t.cache with entries := t.cache.entries.erase name } }
  | waits (t' : Turn σ) (e : Entry) (live : Option Handle) (h : Handle) (e' : Entry)
      (started : Option LoadTask) (hentry : t.cache.entries.get? name = some e)
      (hlive : live = e.handle.bind t.store.upgrade?)
      (hwaits : Waits t t' name { e with generation := e.generation + 1 } h live e' started) :
      Restarts name t t'

/-- What completing a load does. -/
inductive Completes (load : Load) (outcome : Except Failure Value) (t : Turn σ) :
    Turn σ → Prop where
  | orphaned (hnot : ∀ e, t.cache.entries.get? load.name = some e → e.task ≠ some load.task) :
      Completes load outcome t t
  /-- The name is given the outcome of its load. -/
  | delivered (e : Entry) (h o : Handle) (hs : Handles)
      (hentry : t.cache.entries.get? load.name = some e)
      (htask : e.task = some load.task) (hgen : e.generation = load.task.generation)
      (hhandle : e.handle = some o)
      (hadds : t.store.handles.Adds hs h (outcomeOf load.name e.loadedOnce outcome).1 (some o))
      (hname : h.name = load.name) :
      Completes load outcome t
        { t with
          store := { t.store with handles := hs }
          cache := { t.cache with
            entries := t.cache.entries.insert load.name (e.loadedAt h)
            events := t.cache.events.push (outcomeOf load.name e.loadedOnce outcome).2
            signals := signalled t.cache.signals e.pending } }
  /-- Nobody holds the handle that the outcome is for. -/
  | dropped (e : Entry) (h : Handle) (hs : Handles)
      (hentry : t.cache.entries.get? load.name = some e)
      (htask : e.task = some load.task) (hgen : e.generation = load.task.generation)
      (hdead : e.Dead t.store.handles)
      (hadds : t.store.handles.Adds hs h (outcomeOf load.name e.loadedOnce outcome).1 none) :
      Completes load outcome t
        { t with
          store := { t.store with handles := hs }
          cache := { t.cache with
            entries := t.cache.entries.erase load.name
            events := t.cache.events.push (outcomeOf load.name e.loadedOnce outcome).2
            signals := signalled t.cache.signals e.pending } }
  /-- The load was overtaken, and nobody holds the handle of its name. -/
  | abandoned (e : Entry) (hentry : t.cache.entries.get? load.name = some e)
      (htask : e.task = some load.task) (hgen : e.generation ≠ load.task.generation)
      (hdead : e.Dead t.store.handles) :
      Completes load outcome t
        { t with
          cache := { t.cache with
            entries := t.cache.entries.erase load.name
            signals := signalled t.cache.signals e.pending } }
  /-- The load was overtaken, and starts once more. -/
  | again (t' : Turn σ) (e e' : Entry) (started : Option LoadTask)
      (hentry : t.cache.entries.get? load.name = some e)
      (htask : e.task = some load.task) (hgen : e.generation ≠ load.task.generation)
      (hthere : (e.handle.bind t.store.upgrade?).isSome)
      (henters : Enters t t' load.name { e with task := none } e' started) :
      Completes load outcome t t'

/-! ## The steps -/

theorem bind_upgrade?_eq_none : e.handle.bind t.store.upgrade? = none ↔ e.Dead t.store.handles := by
  simp only [Entry.Dead, Option.bind_eq_none_iff, Store.upgrade?, ite_eq_right_iff,
    Option.isSome_iff_exists, reduceCtorEq, imp_false, not_exists]
  exact forall₂_congr fun h _ => Option.eq_none_iff_forall_ne_some.symm

theorem bind_upgrade?_eq_some : e.handle.bind t.store.upgrade? = some h ↔
    e.handle = some h ∧ (t.store.handles.slot? h).isSome := by
  rw [Option.bind_eq_some_iff]
  constructor
  · rintro ⟨g, hg, hup⟩
    rw [Store.upgrade?] at hup
    split_ifs at hup with hthere
    obtain rfl := Option.some.inj hup
    exact ⟨hg, hthere⟩
  · rintro ⟨hg, hthere⟩
    exact ⟨h, hg, by rw [Store.upgrade?, if_pos hthere]⟩

theorem adds_withPlaceholder (hs : Handles) (name : String) (id : Nat) :
    hs.Adds (withPlaceholder hs name id) ⟨name, some hs.slots.size⟩ .null none :=
  (Handles.adds_new hs name .null).setOwner _

theorem adds_redirected {hs hs' : Handles} {value : Value} {live : Option Handle}
    (ha : hs.Adds hs' h value none) (hlive : ∀ o, live = some o → (hs.slot? o).isSome) :
    hs.Adds (redirected hs' h live) h value live := by
  cases live with
  | none => exact ha
  | some o => exact (ha.setOwner none).invalidate rfl (hlive o rfl)

/-- Waiting behind a handle changes no slot: it takes a signal, and enters the entry that waits. -/
theorem run_await_spawn (name : String) (e : Entry) (h : Handle) (t : Turn σ) :
    (await name e h >>= spawn name).run t =
      (enter name (e.waitingAt h (t.cache.signalOf e)) >>= spawn name).run
        (prepared t t.store.handles e) := by
  rw [run_bind, await, run_bind, run_pendingSignal, run_bind]
  rfl

/-- Putting a name behind a new handle and starting its load. -/
theorem waits_await (hs : Handles) (old : Option Handle)
    (ha : t.store.handles.Adds hs h .null old) (hname : h.name = name) :
    ∃ e' started, Waits t ((await name e h >>= spawn name).run
      { t with store := { t.store with handles := hs } }).2 name e h old e' started := by
  obtain ⟨e', started, he⟩ := enters_enter name (e.waitingAt h (t.cache.signalOf e))
    (prepared t hs e)
  have hrun : (await name e h >>= spawn name).run
      { t with store := { t.store with handles := hs } } =
      (enter name (e.waitingAt h (t.cache.signalOf e)) >>= spawn name).run
        (prepared t hs e) := run_await_spawn name e h _
  have hs' := congrArg (·.store.handles) he.rest
  rw [hrun]
  refine ⟨e', started, ?_, hname, ?_⟩
  · rw [hs']
    exact ha
  · rw [hs']
    exact he

/-- Asking for a name gives out the handle in use, or has the name wait behind a new one. -/
theorem run_getResource_eq (name : String) (t : Turn σ) : (getResource name).run t =
    match ((t.cache.entries.get? name).getD .new).handle.bind t.store.upgrade? with
    | some h => (h, t)
    | none => (do
        let h ← newPlaceholder name
        spawn name (← await name ((t.cache.entries.get? name).getD .new) h)
        return h : CacheM σ Handle).run t := by
  rw [getResource, run_bind, run_lookup?, run_bind, run_liveHandle?]
  cases ((t.cache.entries.get? name).getD .new).handle.bind t.store.upgrade? <;> rfl

theorem run_getResource (name : String) (t : Turn σ) :
    Gives name t ((getResource name).run t).1 ((getResource name).run t).2 := by
  rw [run_getResource_eq]
  cases hlive : ((t.cache.entries.get? name).getD .new).handle.bind t.store.upgrade? with
  | some h =>
    obtain ⟨hhandle, hthere⟩ := bind_upgrade?_eq_some.mp hlive
    cases hentry : t.cache.entries.get? name with
    | none =>
      rw [hentry] at hhandle
      cases hhandle
    | some e =>
      rw [hentry] at hhandle
      exact .again e h hentry hhandle hthere
  | none =>
    obtain ⟨e', started, hw⟩ := waits_await (e := (t.cache.entries.get? name).getD .new) _ none
      (adds_withPlaceholder t.store.handles name t.cache.id) rfl
    exact .waits _ _ _ e' started rfl (bind_upgrade?_eq_none.mp hlive) hw

/-- Invalidating a name forgets it where nobody uses it, and else has it wait behind a new handle,
which replaces the one in use. -/
theorem run_invalidate_eq (name : String) (t : Turn σ) : (invalidate name).run t =
    match t.cache.entries.get? name with
    | none => ((), t)
    | some e =>
      if (e.handle.bind t.store.upgrade?).isNone && e.task.isNone then
        ((), { t with cache := { t.cache with entries := t.cache.entries.erase name } })
      else
        (await name { e with generation := e.generation + 1 }
          ⟨name, some t.store.handles.slots.size⟩ >>= spawn name).run
          { t with store := { t.store with
            handles := redirected (withPlaceholder t.store.handles name t.cache.id)
              ⟨name, some t.store.handles.slots.size⟩ (e.handle.bind t.store.upgrade?) } } := by
  rw [invalidate, run_bind, invalidateEntry, run_bind, run_lookup?]
  cases t.cache.entries.get? name with
  | none => rfl
  | some e =>
    cases hunused : (e.handle.bind t.store.upgrade?).isNone && e.task.isNone with
    | true =>
      simp only [run_bind, run_liveHandle?, hunused]
      rfl
    | false =>
      simp only [run_bind, run_liveHandle?, hunused, Bool.false_eq_true, if_false,
        run_newPlaceholder, run_redirect]

theorem run_invalidate (name : String) (t : Turn σ) :
    Restarts name t ((invalidate name).run t).2 := by
  rw [run_invalidate_eq]
  cases hentry : t.cache.entries.get? name with
  | none => exact .absent hentry
  | some e =>
    dsimp only
    split_ifs with hunused
    · rw [Bool.and_eq_true, Option.isNone_iff_eq_none, Option.isNone_iff_eq_none,
        bind_upgrade?_eq_none] at hunused
      exact .unused e hentry hunused.2 hunused.1
    · obtain ⟨e', started, hw⟩ := waits_await (e := { e with generation := e.generation + 1 }) _ _
        (adds_redirected (adds_withPlaceholder t.store.handles name t.cache.id)
          fun o ho => (bind_upgrade?_eq_some.mp ho).2) rfl
      exact .waits _ e _ _ e' started hentry rfl hw

/-- The outcome of a load stands in a new slot, which replaces the handle in use. -/
theorem run_deliver_eq (name : String) (e : Entry) (outcome : Except Failure Value) (t : Turn σ) :
    (deliver name e outcome).run t = ((), { t with
      store := { t.store with
        handles := redirected
          (t.store.handles.new name (outcomeOf name e.loadedOnce outcome).1).2
          ⟨name, some t.store.handles.slots.size⟩ (e.handle.bind t.store.upgrade?) }
      cache := { t.cache with
        entries := if (e.handle.bind t.store.upgrade?).isSome then
            t.cache.entries.insert name (e.loadedAt ⟨name, some t.store.handles.slots.size⟩)
          else t.cache.entries.erase name
        events := t.cache.events.push (outcomeOf name e.loadedOnce outcome).2
        signals := signalled t.cache.signals e.pending } }) := by
  rw [deliver, run_bind, run_liveHandle?]
  cases e.handle.bind t.store.upgrade? <;> cases e.pending <;> rfl

theorem run_deliver (load : Load) (outcome : Except Failure Value) (t : Turn σ)
    (hentry : t.cache.entries.get? load.name = some e) (htask : e.task = some load.task)
    (hgen : e.generation = load.task.generation) :
    Completes load outcome t ((deliver load.name e outcome).run t).2 := by
  have hadds := Handles.adds_new t.store.handles load.name
    (outcomeOf load.name e.loadedOnce outcome).1
  rw [run_deliver_eq]
  cases hlive : e.handle.bind t.store.upgrade? with
  | none => exact .dropped e _ _ hentry htask hgen (bind_upgrade?_eq_none.mp hlive) hadds
  | some o =>
    obtain ⟨hhandle, hthere⟩ := bind_upgrade?_eq_some.mp hlive
    refine .delivered e _ o _ hentry htask hgen hhandle (adds_redirected hadds ?_) rfl
    rintro _ ⟨⟩
    exact hthere

theorem run_retryLoad (load : Load) (outcome : Except Failure Value) (t : Turn σ)
    (hentry : t.cache.entries.get? load.name = some e) (htask : e.task = some load.task)
    (hgen : e.generation ≠ load.task.generation) :
    Completes load outcome t ((retryLoad load.name e).run t).2 := by
  cases hlive : e.handle.bind t.store.upgrade? with
  | none =>
    have hrun : (retryLoad load.name e).run t = ((), { t with cache := { t.cache with
        entries := t.cache.entries.erase load.name
        signals := signalled t.cache.signals e.pending } }) := by
      simp only [retryLoad, run_bind, run_liveHandle?, hlive]
      cases e.pending <;> rfl
    rw [hrun]
    exact .abandoned e hentry htask hgen (bind_upgrade?_eq_none.mp hlive)
  | some o =>
    have hrun : (retryLoad load.name e).run t =
        (enter load.name { e with task := none } >>= spawn load.name).run t := by
      simp only [retryLoad, run_bind, run_liveHandle?, hlive]
      rfl
    obtain ⟨e', started, he⟩ := enters_enter load.name { e with task := none } t
    rw [hrun]
    exact .again _ e e' started hentry htask hgen (by rw [hlive]; rfl) he

theorem run_completeLoad (load : Load) (outcome : Except Failure Value) (t : Turn σ) :
    Completes load outcome t ((completeLoad load outcome).run t).2 := by
  rw [completeLoad, run_bind, run_lookup?]
  cases hentry : t.cache.entries.get? load.name with
  | none => exact .orphaned fun e he => by rw [hentry] at he; cases he
  | some e =>
    by_cases htask : e.task = some load.task
    · by_cases hgen : e.generation = load.task.generation
      · simp only [htask, hgen, if_true]
        exact run_deliver load outcome t hentry htask hgen
      · simp only [htask, hgen, if_true, if_false]
        exact run_retryLoad load outcome t hentry htask hgen
    · simp only [htask, if_false]
      refine .orphaned fun f hf => ?_
      rw [hentry] at hf
      exact Option.some.inj hf ▸ htask

/-! ## Serving entries one by one -/

/-- Serves a name from a compiled value, and puts its load in flight. -/
def update (name : String) (value : Value) : CacheM σ Unit := setResource name value >>= spawn name

/-- A part of a step that neither starts loads nor looks at those that were started. -/
def Silent (x : CacheM σ α) : Prop :=
  ∀ t loads, x.run (launch t loads) = ((x.run t).1, launch (x.run t).2 loads)

theorem silent_pure (a : α) : Silent (pure a : CacheM σ α) := fun _ _ => rfl

theorem silent_bind {x : CacheM σ α} {f : α → CacheM σ β} (hx : Silent x)
    (hf : ∀ a, Silent (f a)) : Silent (x >>= f) := by
  intro t loads
  rw [run_bind, hx, hf, run_bind]

theorem silent_enter (name : String) (e : Entry) : Silent (enter name e : CacheM σ _) := by
  refine silent_bind (fun _ _ => rfl) fun _ t loads => ?_
  rw [run_claimTask, run_claimTask]
  simp only [launch]
  cases t.cache.entries.get? name with
  | none => rfl
  | some e => cases htask : e.task <;> simp [htask]

theorem silent_await (name : String) (e : Entry) (h : Handle) :
    Silent (await name e h : CacheM σ _) := by
  refine silent_bind (fun t loads => ?_) fun _ => silent_enter name _
  rw [run_pendingSignal, run_pendingSignal]
  rfl

theorem silent_invalidateEntry (name : String) : Silent (invalidateEntry name : CacheM σ _) := by
  refine silent_bind (fun _ _ => rfl) fun entry => ?_
  cases entry with
  | none => exact silent_pure none
  | some e =>
    refine silent_bind (fun _ _ => rfl) fun live => ?_
    cases hunused : live.isNone && e.task.isNone with
    | true =>
      simp only [if_true]
      exact silent_bind (fun _ _ => rfl) fun _ => silent_pure none
    | false =>
      simp only [Bool.false_eq_true, if_false]
      refine silent_bind (fun _ _ => rfl) fun h => silent_bind (fun t loads => ?_) fun _ =>
        silent_await name _ h
      rw [run_redirect, run_redirect]
      rfl

/-- Serving a name from a value changes nothing. -/
def serves (c : Cache σ) (name : String) (value : Value) : Bool :=
  Reserved.isReserved name || (c.resources.get? name).any (· == value)

/-- The turn with a name served from a value. -/
def serving (t : Turn σ) (name : String) (value : Value) : Turn σ :=
  { t with cache := { t.cache with resources := t.cache.resources.set name value } }

theorem run_setResource (name : String) (value : Value) (t : Turn σ) :
    (setResource name value).run t =
      if t.cache.serves name value then (none, t)
      else (invalidateEntry name).run (serving t name value) := by
  have hrun : (setResource name value).run t =
      (if t.cache.serves name value then return none
        else do
          modifyCache fun c => { c with resources := c.resources.set name value }
          invalidateEntry name : CacheM σ _).run t := rfl
  rw [hrun]
  split_ifs <;> rfl

theorem silent_setResource (name : String) (value : Value) :
    Silent (setResource name value : CacheM σ _) := by
  intro t loads
  have hserves : (launch t loads).cache.serves name value = t.cache.serves name value := rfl
  rw [run_setResource, run_setResource, hserves]
  split_ifs
  · rfl
  · exact silent_invalidateEntry name (serving t name value) loads

theorem silent_mapM {f : α → CacheM σ β} (hf : ∀ a, Silent (f a)) (as : List α) :
    Silent (as.mapM f) := by
  induction as with
  | nil => exact silent_pure []
  | cons a rest ih =>
    rw [List.mapM_cons]
    exact silent_bind (hf a) fun _ => silent_bind ih fun _ => silent_pure _

/-- **Compiled entries are served one by one**, although their loads are put in flight at the
end. -/
theorem run_setResources (d : Dict Value) (t : Turn σ) :
    (setResources d).run t =
      ((), d.entries.foldl (fun u entry => ((update entry.1 entry.2).run u).2) t) := by
  have hloop : (setResources d : CacheM σ Unit) =
      d.entries.mapM (fun entry => return (entry.1, ← setResource entry.1 entry.2)) >>=
        fun restarts => restarts.foldlM (fun _ restart => spawn restart.1 restart.2) () := by
    simp [setResources]
  rw [hloop]
  induction d.entries generalizing t with
  | nil => rfl
  | cons entry rest ih =>
    have hsilent := silent_mapM (σ := σ) (fun entry : String × Value => silent_bind
      (silent_setResource entry.1 entry.2) fun started => silent_pure (entry.1, started)) rest
    rw [List.foldl_cons, ← ih, List.mapM_cons]
    simp only [update, run_bind, run_pure, List.foldlM_cons, run_spawn]
    rw [hsilent]

/-- What serving a name does. -/
theorem run_update (name : String) (value : Value) (t : Turn σ) :
    (t.cache.serves name value ∧ ((update name value).run t).2 = t) ∨
      (¬ t.cache.serves name value ∧
        Restarts name (serving t name value) ((update name value).run t).2) := by
  rw [update, run_bind, run_setResource]
  split_ifs with hserves
  · refine .inl ⟨hserves, ?_⟩
    rw [run_spawn, launched, Option.map_none, Option.toList_none, launch, List.append_nil]
    rfl
  · exact .inr ⟨hserves, run_invalidate name (serving t name value)⟩

/-! ## What is served -/

theorem Gives.resources (hg : Gives name t h t') : t'.cache.resources = t.cache.resources := by
  cases hg with
  | again => rfl
  | waits t' e h e' started _ _ hw => exact hw.resources

theorem Restarts.resources (hr : Restarts name t t') : t'.cache.resources = t.cache.resources := by
  cases hr with
  | absent => rfl
  | unused => rfl
  | waits t' e live h e' started _ _ hw => exact hw.resources

theorem Completes.resources {load : Load} {outcome : Except Failure Value}
    (hc : Completes load outcome t t') : t'.cache.resources = t.cache.resources := by
  cases hc with
  | orphaned => rfl
  | delivered => rfl
  | dropped => rfl
  | abandoned => rfl
  | again t' e e' started _ _ _ _ he => exact he.resources

theorem wellFormed_resources_update (hw : t.cache.resources.WellFormed) (name : String)
    (value : Value) : ((update name value).run t).2.cache.resources.WellFormed := by
  rcases run_update name value t with ⟨-, hsame⟩ | ⟨-, hrestarts⟩
  · rw [hsame]
    exact hw
  · rw [hrestarts.resources]
    exact Dict.wellFormed_set hw

/-- What serving one name preserves, serving compiled entries preserves. -/
theorem setResources_induction {P : Turn σ → Prop}
    (hupdate : ∀ u name value, P u → P ((update name value).run u).2) (d : Dict Value)
    (ht : P t) : P ((setResources d).run t).2 := by
  rw [run_setResources]
  induction d.entries generalizing t with
  | nil => exact ht
  | cons entry rest ih => exact ih (hupdate t entry.1 entry.2 ht)

/-! ## Clearing -/

/-- The slots after the handle of an entry, if a cache with this number was loading it, is loaded no
longer. -/
def released (hs : Handles) (id : Nat) : Option Handle → Handles
  | some h => if hs.owner? h = some id then hs.setOwner h none else hs
  | none => hs

theorem alike_released (hs : Handles) (id : Nat) (handle : Option Handle) :
    hs.Alike (released hs id handle) := by
  cases handle with
  | none => exact Handles.alike_refl
  | some h =>
    rw [released]
    split_ifs
    · exact Handles.alike_setOwner none
    · exact Handles.alike_refl

theorem run_forget (e : Entry) (t : Turn σ) : (forget e).run t = ((), { t with
    store := { t.store with handles := released t.store.handles t.cache.id e.handle }
    cache := { t.cache with signals := signalled t.cache.signals e.pending } }) := by
  rw [forget, run_bind, run_liveHandle?]
  cases hhandle : e.handle with
  | none => exact run_setSignal e.pending t
  | some h =>
    rw [Option.bind_some, Store.upgrade?, released]
    split_ifs with hthere howner
    · have hrun : (if t.store.handles.owner? h = some t.cache.id then
            (setOwner h none >>= fun _ => setSignal e.pending : CacheM σ Unit)
          else setSignal e.pending).run t = ((), { t with
            store := { t.store with handles := t.store.handles.setOwner h none }
            cache := { t.cache with signals := signalled t.cache.signals e.pending } }) := by
        rw [if_pos howner]
        exact run_setSignal e.pending _
      exact hrun
    · have hrun : (if t.store.handles.owner? h = some t.cache.id then
            (setOwner h none >>= fun _ => setSignal e.pending : CacheM σ Unit)
          else setSignal e.pending).run t = ((), { t with
            cache := { t.cache with signals := signalled t.cache.signals e.pending } }) := by
        rw [if_neg howner]
        exact run_setSignal e.pending t
      exact hrun
    · -- a handle whose slot is gone has no owner
      next howner =>
      rw [Handles.owner?, Option.not_isSome_iff_eq_none.mp hthere] at howner
      cases howner
    · exact run_setSignal e.pending t

/-- The slots after all entries of a list were forgotten. -/
def releasedAll (hs : Handles) (id : Nat) (entries : List (String × Entry)) : Handles :=
  entries.foldl (fun hs entry => released hs id entry.2.handle) hs

/-- The signals after all entries of a list were forgotten. -/
def signalledAll (signals : Array Signal) (entries : List (String × Entry)) : Array Signal :=
  entries.foldl (fun signals entry => signalled signals entry.2.pending) signals

theorem alike_releasedAll (hs : Handles) (id : Nat) (entries : List (String × Entry)) :
    hs.Alike (releasedAll hs id entries) := by
  induction entries generalizing hs with
  | nil => exact Handles.alike_refl
  | cons entry rest ih => exact (alike_released hs id entry.2.handle).trans (ih _)

/-- Clearing forgets every entry, and everything that was served. -/
theorem run_clear_eq (t : Turn σ) : (clear.run t).2 = { t with
    store := { t.store with
      handles := releasedAll t.store.handles t.cache.id t.cache.entries.entries }
    cache := { t.cache with
      resources := ∅, entries := ∅
      signals := signalledAll t.cache.signals t.cache.entries.entries } } := by
  have hclear : (clear : CacheM σ Unit) = (do
      modifyCache fun c => { c with resources := ∅ }
      let t ← get
      t.cache.entries.entries.foldlM (fun _ entry => forget entry.2) ()
      modifyCache fun c => { c with entries := ∅ }) := by
    simp [clear]
  have hforget : ∀ (entries : List (String × Entry)) (u : Turn σ),
      (entries.foldlM (fun _ entry => forget entry.2) ()).run u = ((), { u with
        store := { u.store with handles := releasedAll u.store.handles u.cache.id entries }
        cache := { u.cache with signals := signalledAll u.cache.signals entries } }) := by
    intro entries
    induction entries with
    | nil => exact fun u => rfl
    | cons entry rest ih =>
      intro u
      rw [List.foldlM_cons, run_bind, run_forget, ih]
      rfl
  have hrun := hforget t.cache.entries.entries { t with cache := { t.cache with resources := ∅ } }
  have hloop : (clear : CacheM σ Unit).run t =
      ((t.cache.entries.entries.foldlM (fun _ entry => forget entry.2) () : CacheM σ Unit) >>=
        fun _ => modifyCache fun c => { c with entries := ∅ }).run
        { t with cache := { t.cache with resources := ∅ } } := by
    rw [hclear]
    rfl
  rw [hloop, run_bind, hrun]
  rfl

theorem run_clear (t : Turn σ) :
    ∃ hs signals, t.store.handles.Alike hs ∧ (clear.run t).2 = { t with
      store := { t.store with handles := hs }
      cache := { t.cache with resources := ∅, entries := ∅, signals := signals } } :=
  ⟨_, _, alike_releasedAll _ _ _, run_clear_eq t⟩

end Cache

end ResourceTree
