import ResourceTree.Proofs.Cache.Freshness

/-!
# What a cache tells about its loads

A load that comes to a value is told of as a reload where its entry has been filled before. Entries
stay when the last handle of their name is dropped, so a name may be loaded again without having
been invalidated: it is enough that it is asked for once more.

* `Mark`, `Since`: logs of runs, and what followed the last event of a name;
* `System.Tells`, **`System.Logged`**: the runs of a cache, each with its log;
* `Effect`: what a step does to the entries, in view of what is told of it;
* `Told`: an entry that was filled has an event in the log, and if it waits for another load, what
  the load is for comes after;
* **`Logged.reloaded_renewed`**: since the event before it, the name of a reload was invalidated,
  changed, or asked for with all its handles gone.
-/

namespace ResourceTree

/-! ## Logs -/

/-- What is told of a step. -/
inductive Mark where
  /-- A load completed. -/
  | event (e : Event)
  | invalidated (name : String)
  /-- The name is served from another value. -/
  | changed (name : String)
  /-- The name was asked for when all its handles were gone. -/
  | revived (name : String)
  | cleared
deriving DecidableEq, Repr

namespace Mark

/-- The program has a name loaded again. -/
def Invalidates (name : String) (m : Mark) : Prop := m = .invalidated name ∨ m = .changed name

/-- Something that a name may be loaded again for. -/
def Renews (name : String) (m : Mark) : Prop := m.Invalidates name ∨ m = .revived name

theorem renews_invalidated (name : String) : (invalidated name).Renews name := .inl (.inl rfl)

theorem renews_changed (name : String) : (changed name).Renews name := .inl (.inr rfl)

theorem renews_revived (name : String) : (revived name).Renews name := .inr rfl

theorem Renews.ne_event {name : String} {m : Mark} (hm : m.Renews name) (e : Event) :
    m ≠ .event e := by
  rintro rfl
  rcases hm with (hm | hm) | hm <;> cases hm

theorem Renews.ne_cleared {name : String} {m : Mark} (hm : m.Renews name) : m ≠ .cleared := by
  rintro rfl
  rcases hm with (hm | hm) | hm <;> cases hm

end Mark

/-- In a log, `recent` is what comes after the last event of a name. -/
def Since (name : String) (log recent : List Mark) : Prop :=
  ∃ earlier e, log = earlier ++ .event e :: recent ∧ e.name = name ∧
    ∀ f, .event f ∈ recent → f.name ≠ name

theorem since_concat (log : List Mark) (e : Event) : Since e.name (log ++ [.event e]) [] :=
  ⟨log, e, rfl, rfl, nofun⟩

theorem Since.append {name : String} {log recent marks : List Mark} (hs : Since name log recent)
    (hmarks : ∀ f, .event f ∈ marks → f.name ≠ name) :
    Since name (log ++ marks) (recent ++ marks) := by
  obtain ⟨earlier, e, rfl, hname, hrecent⟩ := hs
  refine ⟨earlier, e, by rw [List.append_assoc, List.cons_append], hname, fun f hf => ?_⟩
  exact (List.mem_append.mp hf).elim (hrecent f) (hmarks f)

/-- The name has had an event, and since then something to load it again for, with the cache not
cleared in between. -/
def Renewed (name : String) (log : List Mark) : Prop :=
  ∃ recent, Since name log recent ∧ .cleared ∉ recent ∧ ∃ m ∈ recent, m.Renews name

/-- The events that a buffer has got since it was like another. -/
def EventBuffer.since (old new : EventBuffer) : List Event := new.events.drop old.size

@[simp] theorem EventBuffer.since_self (b : EventBuffer) : b.since b = [] := List.drop_length

@[simp] theorem EventBuffer.since_push (b : EventBuffer) (e : Event) : b.since (b.push e) = [e] :=
  List.drop_left

namespace Cache

variable {σ : Type}

/-- The names that are served from another value, once these compiled entries are served. -/
def changes (c : Cache σ) (d : Dict Value) : List String :=
  (d.entries.filter fun entry => !c.serves entry.1 entry.2).map Prod.fst

/-- The name has an entry, but nothing holds its handle. -/
def lapsed (t : Turn σ) (name : String) : Bool :=
  (t.cache.entries.get? name).any fun e => (e.handle.bind t.store.upgrade?).isNone

end Cache

namespace System

variable {σ : Type}

/-- What is told when a name is asked for. -/
def asked (s : System σ) (name : String) : List Mark :=
  if Cache.lapsed s.turn name then [.revived name] else []

variable [ObjectClass σ]

/-- The steps of a system, and what is told of each. -/
inductive Tells (s : System σ) : System σ → List Mark → Prop where
  | getResource (name : String) : Tells s (s.take name) (s.asked name)
  | invalidate (name : String) : Tells s (s.act (Cache.invalidate name)) [.invalidated name]
  | setResources (d : Dict Value) :
      Tells s (s.act (Cache.setResources d)) ((s.cache.changes d).map .changed)
  | clear : Tells s s.cleared [.cleared]
  | drainEvents : Tells s { s with cache := s.cache.drainEvents.2 } []
  | newHandle (name : String) (value : Value) :
      Tells s { s with
        store := (s.store.newHandle name value).2
        held := s.held ++ (s.store.newHandle name value).1.links } []
  | hold (g : Handle) (hthere : (s.store.handles.slot? g).isSome) :
      Tells s { s with held := s.held ++ g.links } []
  | drop (link : Link) : Tells s { s with held := s.held.erase link } []
  | free (store : Store σ) (hfrees : s.store.Frees s.roots store) :
      Tells s { s with store := store } []
  | read (before after : List (Flight σ)) (f : Flight σ) (hf : s.flights = before ++ f :: after)
      (hwork : f.work = none) :
      Tells s (s.goOn before after (f.working (s.cache.conversion f.load.name))) []
  | request (before after : List (Flight σ)) (f : Flight σ) (name : String)
      (next : Handle → Conversion σ Value) (hf : s.flights = before ++ f :: after)
      (hwork : f.work = some (.handle name next)) :
      Tells s ((s.goOn before after (f.working (next (s.answer name)))).ask name) (s.asked name)
  | make (before after : List (Flight σ)) (f : Flight σ) (item : σ)
      (next : ObjectRef → Conversion σ Value) (hf : s.flights = before ++ f :: after)
      (hwork : f.work = some (.object item next)) :
      Tells s ((s.goOn before after (f.working (next (s.reference item)))).keep item) []
  /-- The events that the load has added are told. -/
  | complete (before after : List (Flight σ)) (f : Flight σ) (rest : Conversion σ Value)
      (outcome : Except Failure Value) (s' : System σ) (hf : s.flights = before ++ f :: after)
      (hwork : f.work = some rest) (houtcome : rest.outcome? = some outcome)
      (hs' : s' = act { s with flights := before ++ after }
        (Cache.completeLoad f.load outcome >>= fun _ => Cache.endLoad)) :
      Tells s s' ((s.cache.events.since s'.cache.events).map .event)

/-- The states that a new cache may come to, each with what was told on the way. -/
inductive Logged : System σ → List Mark → Prop where
  | start (id : Nat) (registry : Registry σ) : Logged (start id registry) []
  | step {s s' : System σ} {log marks : List Mark} (hs : Logged s log) (htells : Tells s s' marks) :
      Logged s' (log ++ marks)

variable {s s' : System σ} {log marks : List Mark}

theorem Tells.step (ht : Tells s s' marks) : Step s s' := by
  cases ht with
  | getResource name => exact .getResource name
  | invalidate name => exact .invalidate name
  | setResources d => exact .setResources d
  | clear => exact .clear
  | drainEvents => exact .drainEvents
  | newHandle name value => exact .newHandle name value
  | hold g hthere => exact .hold g hthere
  | drop link => exact .drop link
  | free store hfrees => exact .free store hfrees
  | read before after f hf hwork => exact .read before after f hf hwork
  | request before after f name next hf hwork => exact .request before after f name next hf hwork
  | make before after f item next hf hwork => exact .make before after f item next hf hwork
  | complete before after f rest outcome _ hf hwork houtcome hs' =>
    exact hs' ▸ .complete before after f rest outcome hf hwork houtcome

theorem Step.tells (hstep : Step s s') : ∃ marks, Tells s s' marks := by
  cases hstep with
  | getResource name => exact ⟨_, .getResource name⟩
  | invalidate name => exact ⟨_, .invalidate name⟩
  | setResources d => exact ⟨_, .setResources d⟩
  | clear => exact ⟨_, .clear⟩
  | drainEvents => exact ⟨_, .drainEvents⟩
  | newHandle name value => exact ⟨_, .newHandle name value⟩
  | hold g hthere => exact ⟨_, .hold g hthere⟩
  | drop link => exact ⟨_, .drop link⟩
  | free store hfrees => exact ⟨_, .free store hfrees⟩
  | read before after f hf hwork => exact ⟨_, .read before after f hf hwork⟩
  | request before after f name next hf hwork =>
    exact ⟨_, .request before after f name next hf hwork⟩
  | make before after f item next hf hwork => exact ⟨_, .make before after f item next hf hwork⟩
  | complete before after f rest outcome hf hwork houtcome =>
    exact ⟨_, .complete before after f rest outcome _ hf hwork houtcome rfl⟩

/-- **The states with a log are those that a new cache may come to.** -/
theorem reachable_iff_logged : Reachable s ↔ ∃ log, Logged s log := by
  constructor
  · intro hs
    induction hs with
    | start id registry => exact ⟨[], .start id registry⟩
    | step _ hstep ih =>
      obtain ⟨log, hlog⟩ := ih
      obtain ⟨marks, htells⟩ := hstep.tells
      exact ⟨log ++ marks, hlog.step htells⟩
  · rintro ⟨log, hlog⟩
    induction hlog with
    | start id registry => exact .start id registry
    | step _ htells ih => exact ih.step htells.step

end System

/-! ## Entries before and after a step -/

/-- The entries that were filled before have been there, and wait for no load that was not there
either, unless their name was renewed. -/
def Descends (renewed : String → Prop) (old new : Dict Entry) : Prop :=
  ∀ n e', new.get? n = some e' → e'.loadedOnce →
    ∃ e, old.get? n = some e ∧ e.loadedOnce ∧ (e'.task.isSome → e.task.isSome ∨ renewed n)

/-- What a step does to the entries, in view of what is told of it. -/
inductive Effect (old new : Dict Entry) : List Mark → Prop
  | clears (hempty : new = ∅) : Effect old new [.cleared]
  /-- What waits for a load from now on was renewed. -/
  | renews (marks : List Mark) (hmarks : ∀ m ∈ marks, ∃ n, m.Renews n)
      (hdescends : Descends (fun n => ∃ m ∈ marks, m.Renews n) old new) : Effect old new marks
  /-- The load that an entry has waited for ends, as a reload only if the entry was filled. -/
  | ends (e : Entry) (event : Event) (hentry : old.get? event.name = some e)
      (htask : e.task.isSome) (hreloaded : event = .reloaded event.name → e.loadedOnce)
      (hself : ∀ e', new.get? event.name = some e' → e'.task = none)
      (hother : ∀ n, n ≠ event.name → new.get? n = old.get? n) : Effect old new [.event event]

/-- The name has had an event, the cache was not cleared since, and if the name waits for a load, it
was renewed since. -/
def ToldOf (name : String) (waits : Prop) (log : List Mark) : Prop :=
  ∃ recent, Since name log recent ∧ .cleared ∉ recent ∧ (waits → ∃ m ∈ recent, m.Renews name)

/-- Every entry that was filled has been told of. -/
def Told (entries : Dict Entry) (log : List Mark) : Prop :=
  ∀ n e, entries.get? n = some e → e.loadedOnce → ToldOf n e.task.isSome log

section Entries

variable {old mid new : Dict Entry} {renewed : String → Prop} {name : String}
  {log marks : List Mark}

theorem descends_refl : Descends renewed old old :=
  fun _ e he hfilled => ⟨e, he, hfilled, .inl⟩

theorem Descends.trans (h₁ : Descends renewed old mid) (h₂ : Descends renewed mid new) :
    Descends renewed old new := by
  intro n e'' he'' hfilled
  obtain ⟨e', he', hfilled', htask'⟩ := h₂ n e'' he'' hfilled
  obtain ⟨e, he, hfilled'', htask⟩ := h₁ n e' he' hfilled'
  exact ⟨e, he, hfilled'', fun htask'' => (htask' htask'').elim htask .inr⟩

theorem descends_erase (hwell : old.WellFormed) : Descends renewed old (old.erase name) := by
  intro n e he hfilled
  rw [Dict.get?_erase hwell] at he
  split_ifs at he
  exact ⟨e, he, hfilled, .inl⟩

theorem effect_quiet : Effect old old [] := .renews [] nofun descends_refl

/-- What is renewed is told of by one mark. -/
theorem effect_renews {m : Mark} (hm : m.Renews name) (hd : Descends (· = name) old new) :
    Effect old new [m] := by
  refine .renews [m] (fun m' hm' => ?_) fun n e' he' hfilled => ?_
  · exact ⟨name, List.mem_singleton.mp hm' ▸ hm⟩
  obtain ⟨e, he, hfilled', htask⟩ := hd n e' he' hfilled
  refine ⟨e, he, hfilled', fun hwaits => (htask hwaits).imp_right ?_⟩
  rintro rfl
  exact ⟨m, List.mem_singleton.mpr rfl, hm⟩

theorem ToldOf.append {waited waits : Prop} (ht : ToldOf name waited log)
    (hevents : ∀ f, .event f ∈ marks → f.name ≠ name) (hcleared : .cleared ∉ marks)
    (hwaits : waits → waited ∨ ∃ m ∈ marks, m.Renews name) : ToldOf name waits (log ++ marks) := by
  obtain ⟨recent, hsince, hrecent, hrenewed⟩ := ht
  refine ⟨recent ++ marks, hsince.append hevents, fun hmem => ?_, fun hw => ?_⟩
  · exact (List.mem_append.mp hmem).elim hrecent hcleared
  · rcases hwaits hw with hwaited | ⟨m, hmem, hm⟩
    · obtain ⟨m, hmem, hm⟩ := hrenewed hwaited
      exact ⟨m, List.mem_append_left _ hmem, hm⟩
    · exact ⟨m, List.mem_append_right _ hmem, hm⟩

theorem told_effect (ht : Told old log) (he : Effect old new marks) : Told new (log ++ marks) := by
  intro n e' he' hfilled
  cases he with
  | clears hempty =>
    rw [hempty, Dict.get?_empty] at he'
    cases he'
  | renews _ hmarks hdescends =>
    obtain ⟨e, hentry, hfilled', htask⟩ := hdescends n e' he' hfilled
    refine (ht n e hentry hfilled').append (fun f hf => ?_) (fun hmem => ?_) htask
    · obtain ⟨m, hm⟩ := hmarks _ hf
      exact absurd rfl (hm.ne_event f)
    · obtain ⟨m, hm⟩ := hmarks _ hmem
      exact hm.ne_cleared rfl
  | ends e event hentry _ _ hself hother =>
    by_cases hn : n = event.name
    · subst hn
      refine ⟨[], since_concat log event, nofun, fun hwaits => ?_⟩
      rw [hself e' he'] at hwaits
      cases hwaits
    · rw [hother n hn] at he'
      refine (ht n e' he' hfilled).append (fun f hf => ?_) (fun hmem => ?_) .inl
      · cases List.mem_singleton.mp hf
        exact Ne.symm hn
      · cases List.mem_singleton.mp hmem

/-- A reload that a step tells of comes first, and its name was renewed before. -/
theorem renewed_of_effect (ht : Told old log) (he : Effect old new marks) {pre post : List Mark}
    (hmarks : marks = pre ++ .event (.reloaded name) :: post) : pre = [] ∧ Renewed name log := by
  have hmem : .event (.reloaded name) ∈ marks := by
    rw [hmarks]
    exact List.mem_append_right _ (List.mem_cons_self ..)
  cases he with
  | clears => cases List.mem_singleton.mp hmem
  | renews _ hrenews _ =>
    obtain ⟨n, hn⟩ := hrenews _ hmem
    exact absurd rfl (hn.ne_event _)
  | ends e event hentry htask hreloaded _ _ =>
    cases List.mem_singleton.mp hmem
    obtain ⟨recent, hsince, hcleared, hrenewed⟩ := ht name e hentry (hreloaded rfl)
    refine ⟨?_, recent, hsince, hcleared, hrenewed htask⟩
    have hlength := congrArg List.length hmarks
    simp only [List.length_append, List.length_cons, List.length_nil] at hlength
    exact List.eq_nil_of_length_eq_zero (by omega)

end Entries

/-! ## What the steps of a cache do to its entries -/

namespace Cache

variable {t t' u : Turn σ} {name n : String} {e e' : Entry} {h : Handle} {old : Option Handle}
  {started : Option LoadTask} {renewed : String → Prop}

/-- The entry of one name is set, which waits for a load from now on. -/
theorem descends_enters {entries : Dict Entry} (he : Enters t t' name e e' started)
    (hentries : t.cache.entries = entries)
    (hentry : e.loadedOnce → ∃ d, entries.get? name = some d ∧ d.loadedOnce ∧
      (d.task.isSome ∨ renewed name)) : Descends renewed entries t'.cache.entries := by
  intro n f hf hfilled
  rw [he.get?] at hf
  split_ifs at hf with hn
  · obtain rfl := Option.some.inj hf
    rw [he.entry] at hfilled
    obtain ⟨d, hd, hdfilled, htask⟩ := hentry hfilled
    exact ⟨d, hn ▸ hd, hdfilled, fun _ => hn ▸ htask⟩
  · exact ⟨f, hentries ▸ hf, hfilled, .inl⟩

theorem descends_gives (hg : Gives name t h t') (hrenewed : lapsed t name → renewed name) :
    Descends renewed t.cache.entries t'.cache.entries := by
  cases hg with
  | again => exact descends_refl
  | waits t' e h e' started hentry hdead hw =>
    refine descends_enters hw.enters rfl fun hfilled => ?_
    cases hget : t.cache.entries.get? name with
    | none =>
      -- a new entry was never filled
      rw [hentry, hget] at hfilled
      cases hfilled
    | some d =>
      rw [hget, Option.getD_some] at hentry
      subst hentry
      refine ⟨e, rfl, hfilled, .inr (hrenewed ?_)⟩
      rw [lapsed, hget, Option.any_some, Option.isNone_iff_eq_none, bind_upgrade?_eq_none]
      exact hdead

theorem descends_restarts (hr : Restarts name t t') (hwell : t.cache.entries.WellFormed)
    (hrenewed : renewed name) : Descends renewed t.cache.entries t'.cache.entries := by
  cases hr with
  | absent => exact descends_refl
  | unused => exact descends_erase hwell
  | waits t' e live h e' started hentry _ hw =>
    exact descends_enters hw.enters rfl fun hfilled => ⟨e, hentry, hfilled, .inr hrenewed⟩

/-! ### Serving compiled entries -/

theorem serves_congr {c c' : Cache σ} (heq : c'.resources.get? name = c.resources.get? name)
    (value : Value) : c'.serves name value = c.serves name value := by
  rw [serves, serves, heq]

theorem serves_of_not_mem_changes {c : Cache σ} {d : Dict Value} {entry : String × Value}
    (hentry : entry ∈ d.entries) (hnot : entry.1 ∉ c.changes d) : c.serves entry.1 entry.2 := by
  by_contra hserves
  refine hnot (List.mem_map_of_mem (List.mem_filter.mpr ⟨hentry, ?_⟩))
  rw [Bool.not_eq_true] at hserves
  rw [hserves, Bool.not_false]

theorem wellFormed_restarts (hwell : t.cache.entries.WellFormed) (hr : Restarts name t t') :
    t'.cache.entries.WellFormed := by
  cases hr with
  | absent => exact hwell
  | unused => exact Dict.wellFormed_erase hwell
  | waits t' e live h e' started _ _ hw => exact hw.enters.wellFormed hwell

/-- On the way from `t`, some of the compiled entries `d` have been served. -/
structure Underway (d : Dict Value) (t u : Turn σ) : Prop where
  entries : u.cache.entries.WellFormed
  resources : u.cache.resources.WellFormed
  /-- The other names are served from the values that they were served from. -/
  same : ∀ n, n ∉ t.cache.changes d → u.cache.resources.get? n = t.cache.resources.get? n
  descends : Descends (· ∈ t.cache.changes d) t.cache.entries u.cache.entries

theorem Underway.update {d : Dict Value} (hu : Underway d t u) {entry : String × Value}
    (hentry : entry ∈ d.entries) : Underway d t ((update entry.1 entry.2).run u).2 := by
  rcases run_update entry.1 entry.2 u with ⟨-, hsame⟩ | ⟨hnot, hrestarts⟩
  · rw [hsame]
    exact hu
  · have hchanged : entry.1 ∈ t.cache.changes d := by
      by_contra hmem
      exact hnot ((serves_congr (hu.same _ hmem) _).trans (serves_of_not_mem_changes hentry hmem))
    have hserving : (serving u entry.1 entry.2).cache.entries.WellFormed := hu.entries
    constructor
    case entries => exact wellFormed_restarts hserving hrestarts
    case resources => exact wellFormed_resources_update hu.resources entry.1 entry.2
    case same =>
      intro n hn
      rw [hrestarts.resources, ← hu.same n hn]
      exact Dict.get?_set_of_ne hu.resources fun heq => hn (heq ▸ hchanged)
    case descends =>
      have hstep : Descends (· ∈ t.cache.changes d)
          (serving u entry.1 entry.2).cache.entries _ :=
        descends_restarts hrestarts hserving hchanged
      exact hu.descends.trans hstep

theorem descends_setResources (hentries : t.cache.entries.WellFormed)
    (hresources : t.cache.resources.WellFormed) (d : Dict Value) :
    Descends (· ∈ t.cache.changes d) t.cache.entries ((setResources d).run t).2.cache.entries := by
  have hserved : Underway d t
      (d.entries.foldl (fun u entry => ((update entry.1 entry.2).run u).2) t) :=
    List.foldlRecOn d.entries _ ⟨hentries, hresources, fun _ _ => rfl, descends_refl⟩
      fun u hu entry hentry => hu.update hentry
  rw [run_setResources]
  exact hserved.descends

/-! ### Completing a load -/

theorem name_outcomeOf (name : String) (again : Bool) (outcome : Except Failure Value) :
    (outcomeOf name again outcome).2.name = name := by
  cases outcome with
  | error failure => rfl
  | ok v => cases again <;> rfl

theorem again_of_outcomeOf_eq_reloaded {again : Bool} {outcome : Except Failure Value}
    (h : (outcomeOf name again outcome).2 = .reloaded n) : again := by
  cases outcome with
  | error failure => cases h
  | ok v =>
    cases again with
    | false => cases h
    | true => rfl

theorem effect_ends {new : Dict Entry} {load : Load} {outcome : Except Failure Value}
    (hentry : t.cache.entries.get? load.name = some e) (htask : e.task = some load.task)
    (hself : ∀ e', new.get? load.name = some e' → e'.task = none)
    (hother : ∀ n, n ≠ load.name → new.get? n = t.cache.entries.get? n) :
    Effect t.cache.entries new [.event (outcomeOf load.name e.loadedOnce outcome).2] := by
  refine .ends e _ ?_ (htask ▸ rfl) again_of_outcomeOf_eq_reloaded ?_ ?_
  all_goals rw [name_outcomeOf]
  · exact hentry
  · exact hself
  · exact hother

theorem effect_completes {load : Load} {outcome : Except Failure Value}
    (hwell : t.cache.entries.WellFormed) (hc : Completes load outcome t t') :
    Effect t.cache.entries t'.cache.entries
      ((t.cache.events.since t'.cache.events).map .event) := by
  cases hc with
  | orphaned =>
    rw [EventBuffer.since_self]
    exact effect_quiet
  | delivered e h o hs hentry htask _ _ _ _ =>
    rw [EventBuffer.since_push]
    refine effect_ends hentry htask (fun e' he' => ?_) fun n hn => ?_
    · rw [Dict.get?_insert_self] at he'
      rw [← Option.some.inj he']
      rfl
    · rw [Dict.get?_insert, if_neg hn]
  | dropped e h hs hentry htask _ _ _ =>
    rw [EventBuffer.since_push]
    refine effect_ends hentry htask (fun e' he' => ?_) fun n hn => ?_
    · rw [Dict.get?_erase hwell, if_pos rfl] at he'
      cases he'
    · rw [Dict.get?_erase hwell, if_neg hn]
  | abandoned e hentry htask _ _ =>
    rw [EventBuffer.since_self]
    exact .renews [] nofun (descends_erase hwell)
  | again t' e e' started hentry htask _ _ he =>
    have hevents : t'.cache.events = t.cache.events := congrArg (·.cache.events) he.rest
    rw [hevents, EventBuffer.since_self]
    -- the entry has waited for a load before, and still does
    exact .renews [] nofun (descends_enters he rfl fun hfilled =>
      ⟨e, hentry, hfilled, .inl (htask ▸ rfl)⟩)

end Cache

/-! ## Runs -/

namespace System

variable {σ : Type} {s s' : System σ} {log marks : List Mark} {name : String}

theorem effect_asked (s : System σ) (name : String) :
    Effect s.cache.entries (s.ask name).cache.entries (s.asked name) := by
  have hgives := Cache.run_getResource name s.turn
  rw [asked]
  split_ifs with hlapsed
  · refine effect_renews (Mark.renews_revived name) (Cache.descends_gives hgives fun _ => ?_)
    rfl
  · exact .renews [] nofun (Cache.descends_gives hgives fun hmem => absurd hmem hlapsed)

variable [ObjectClass σ]

theorem Tells.effect (ho : s.Orderly) (hresources : s.cache.resources.WellFormed)
    (ht : Tells s s' marks) : Effect s.cache.entries s'.cache.entries marks := by
  cases ht with
  | getResource name => exact effect_asked s name
  | invalidate name =>
    refine effect_renews (Mark.renews_invalidated name)
      (Cache.descends_restarts (Cache.run_invalidate name s.turn) ho.tidy.wellFormed ?_)
    rfl
  | setResources d =>
    refine .renews _ (fun m hm => ?_) fun n e' he' hfilled => ?_
    · obtain ⟨name, -, rfl⟩ := List.mem_map.mp hm
      exact ⟨name, Mark.renews_changed name⟩
    · obtain ⟨e, he, hfilled', htask⟩ :=
        Cache.descends_setResources ho.tidy.wellFormed hresources d n e' he' hfilled
      refine ⟨e, he, hfilled', fun hwaits => (htask hwaits).imp_right fun hchanged => ?_⟩
      exact ⟨.changed n, List.mem_map_of_mem hchanged, Mark.renews_changed n⟩
  | clear =>
    obtain ⟨hs, signals, -, hrun⟩ := Cache.run_clear s.turn
    have hempty : (Cache.clear.run s.turn).2.cache.entries = ∅ := by rw [hrun]
    exact .clears hempty
  | request before after f name next hf _ => exact effect_asked (s.goOn ..) name
  | complete before after f rest outcome s' hf _ _ hs' =>
    subst hs'
    have hcompletes := Cache.effect_completes ho.tidy.wellFormed
      (Cache.run_completeLoad f.load outcome s.turn)
    exact hcompletes
  | drainEvents => exact effect_quiet
  | newHandle => exact effect_quiet
  | hold => exact effect_quiet
  | drop => exact effect_quiet
  | free => exact effect_quiet
  | read => exact effect_quiet
  | make => exact effect_quiet

theorem Logged.reachable (hl : Logged s log) : Reachable s := reachable_iff_logged.mpr ⟨log, hl⟩

theorem Logged.told (hl : Logged s log) : Told s.cache.entries log := by
  induction hl with
  | start id registry =>
    intro n e he
    cases he
  | step hs htells ih =>
    exact told_effect ih (htells.effect hs.reachable.orderly hs.reachable.current.1)

/-- **A reload has a reason.** Since the event before it, its name was invalidated, or changed, or
asked for when all its handles were gone; and the cache was not cleared. -/
theorem Logged.reloaded_renewed (hl : Logged s log) {before after : List Mark}
    (hlog : log = before ++ .event (.reloaded name) :: after) : Renewed name before := by
  induction hl generalizing after with
  | start => cases before <;> cases hlog
  | step hs htells ih =>
    have heffect := htells.effect hs.reachable.orderly hs.reachable.current.1
    rcases List.append_eq_append_iff.mp hlog with ⟨pre, rfl, hmarks⟩ | ⟨post, rfl, hpost⟩
    · obtain ⟨rfl, hrenewed⟩ := renewed_of_effect hs.told heffect hmarks
      rwa [List.append_nil]
    · rcases List.cons_eq_append_iff.mp hpost with ⟨rfl, hmarks⟩ | ⟨rest, rfl, -⟩
      · rw [List.append_nil] at hs
        exact (renewed_of_effect hs.told heffect (hmarks.trans (List.nil_append _).symm)).2
      · exact ih rfl

/-! ## Two ways to a second load -/

/-- The first load completes. -/
def firstFilled : System Item :=
  act { firstRead with flights := [] }
    (Cache.completeLoad firstLoad.load (.ok (.bool false)) >>= fun _ => Cache.endLoad)

theorem logged_firstFilled :
    Logged firstFilled [.changed "a", .event (.loaded "a")] := by
  have hread : Logged firstRead [.changed "a"] :=
    (((Logged.start 0 .empty).step (.setResources _)).step (.getResource "a")).step
      (.read [] [] ⟨⟨"a", ⟨1, 0⟩⟩, 0, none⟩ rfl rfl)
  exact hread.step (.complete [] [] firstLoad _ _ _ rfl rfl rfl rfl)

/-- The load of a name that has been invalidated, or asked for, since its first load. -/
def laterLoad (generation : Nat) : Flight Item :=
  Flight.working ⟨⟨"a", ⟨2, generation⟩⟩, 0, none⟩ (.done (.bool false))

/-- The name is invalidated, and loaded again. -/
def invalidatedFirst : System Item :=
  act { (firstFilled.act (Cache.invalidate "a")).goOn [] [] (laterLoad 1) with flights := [] }
    (Cache.completeLoad (laterLoad 1).load (.ok (.bool false)) >>= fun _ => Cache.endLoad)

theorem logged_invalidatedFirst : Logged invalidatedFirst
    [.changed "a", .event (.loaded "a"), .invalidated "a", .event (.reloaded "a")] :=
  ((logged_firstFilled.step (.invalidate "a")).step
    (.read [] [] ⟨⟨"a", ⟨2, 1⟩⟩, 0, none⟩ rfl rfl)).step
      (.complete [] [] (laterLoad 1) _ _ _ rfl rfl rfl rfl)

theorem reloaded_renewed_invalidatedFirst :
    Logged invalidatedFirst
      [.changed "a", .event (.loaded "a"), .invalidated "a", .event (.reloaded "a")] ∧
      Renewed "a" [.changed "a", .event (.loaded "a"), .invalidated "a"] :=
  ⟨logged_invalidatedFirst, Logged.reloaded_renewed logged_invalidatedFirst rfl⟩

/-- What nothing holds is dropped. -/
def swept (s : System Item) : System Item := { s with store := s.store.dropOnce s.roots }

/-- The program gives up the one handle of the name, and nothing is left of it. -/
def givenUp : System Item :=
  ({ firstFilled with held := firstFilled.held.erase (.slot 0) } : System Item).swept.swept

/-- The program asks for the name again, which is loaded again. -/
def givenUpFirst : System Item :=
  act { (givenUp.take "a").goOn [] [] (laterLoad 0) with flights := [] }
    (Cache.completeLoad (laterLoad 0).load (.ok (.bool false)) >>= fun _ => Cache.endLoad)

theorem logged_givenUpFirst : Logged givenUpFirst
    [.changed "a", .event (.loaded "a"), .revived "a", .event (.reloaded "a")] := by
  have hgone : Logged givenUp [.changed "a", .event (.loaded "a")] :=
    ((logged_firstFilled.step (.drop (.slot 0))).step (.free _ Store.frees_dropOnce)).step
      (.free _ Store.frees_dropOnce)
  exact ((hgone.step (.getResource "a")).step
    (.read [] [] ⟨⟨"a", ⟨2, 0⟩⟩, 0, none⟩ rfl rfl)).step
      (.complete [] [] (laterLoad 0) _ _ _ rfl rfl rfl rfl)

/-- A name is told of as reloaded that was neither invalidated nor changed since its first load. -/
theorem reloaded_not_invalidated :
    ¬ ∀ (s : System Item) (log before after : List Mark) (name : String), Logged s log →
      log = before ++ .event (.reloaded name) :: after →
      ∃ recent, Since name before recent ∧ ∃ m ∈ recent, m.Invalidates name := by
  intro hall
  obtain ⟨recent, ⟨earlier, e, hbefore, -, -⟩, m, hm, hinvalidates⟩ :=
    hall givenUpFirst _ [.changed "a", .event (.loaded "a"), .revived "a"] [] "a"
      logged_givenUpFirst rfl
  -- the only event there is the first load
  have hrecent : recent = [.revived "a"] := by
    rcases earlier with _ | ⟨_, _ | ⟨_, _ | ⟨_, _⟩⟩⟩
    · cases hbefore
    · cases hbefore
      rfl
    · cases hbefore
    · simp at hbefore
  rw [hrecent, List.mem_singleton] at hm
  subst hm
  rcases hinvalidates with h | h <;> cases h

end System

end ResourceTree
