import ResourceTree.Example.Item
import ResourceTree.Proofs.Cache.Chains
import ResourceTree.Proofs.Cache.LiveForm

/-!
# No update is lost

A load reads the compiled value of its name in one step and gives it to the entry in another, and
the value may change in between. The generation of the entry tells: it grows with every change, so
a load of the same generation has read the value that is served still.

* `Current`: a load of the generation of its entry makes the value live that is served now, and so
  did the load that a settled entry got its value from;
* `currents_gives`, `currents_restarts`, `currents_completes`: what the cache does keeps entries
  current;
* **`Reachable.no_lost_update`**: in every state, a loaded handle has the live form of the value
  that is served now, and everyone who holds a handle of the name sees it.
-/

namespace ResourceTree

namespace Cache

variable {σ : Type} [ObjectClass σ] {a b : Answers σ} {t t' u : Turn σ}
  {flights flights' : List (Flight σ)} {n name : String} {e e' : Entry} {h : Handle}
  {old : Option Handle} {started : Option LoadTask} {issued : List Issue} {held : List Link}
  {epoch : Nat}

/-- The entry of a name has, or will get from its load, the live form of the value that is served
now. -/
structure Current (a : Answers σ) (t : Turn σ) (flights : List (Flight σ)) (n : String) : Prop where
  /-- No load is ahead of its entry. -/
  dated : ∀ e task, t.cache.entries.get? n = some e → e.task = some task →
    task.generation ≤ e.generation
  /-- A load that was not overtaken makes the value live that is served now. -/
  fetched : ∀ e f rest, t.cache.entries.get? n = some e → f ∈ flights → f.load.name = n →
    e.task = some f.load.task → f.load.task.generation = e.generation → f.work = some rest →
    (t.cache.conversion n).Leads a rest
  served : ∀ e h, t.cache.entries.get? n = some e → e.state = .loaded → e.handle = some h →
    (t.store.handles.slot? h).isSome →
    LiveForm a t.cache.registry n (t.cache.resources.get? n) (t.store.handles.ownValue h)

/-! ## Names that a step does not touch -/

theorem Current.mono (hc : Current a t flights n)
    (hhandle : ∀ name h, a.handle name h → b.handle name h)
    (hobject : ∀ item ref, a.object item ref → b.object item ref) : Current b t flights n where
  dated := hc.dated
  fetched e f rest he hf hn htask hgen hwork :=
    (hc.fetched e f rest he hf hn htask hgen hwork).mono hhandle hobject
  served e h he hstate hh hthere := (hc.served e h he hstate hh hthere).mono hhandle hobject

theorem Current.of_flights (hc : Current a t flights n)
    (hsub : ∀ f ∈ flights', f.work ≠ none → f ∈ flights) : Current a t flights' n where
  dated := hc.dated
  fetched e f rest he hf hn htask hgen hwork :=
    hc.fetched e f rest he (hsub f hf (by rw [hwork]; exact Option.some_ne_none rest)) hn htask hgen
      hwork
  served := hc.served

theorem current_of_get?_eq_none (hnone : t.cache.entries.get? n = none) :
    Current a t flights n where
  dated e task he := by rw [hnone] at he; cases he
  fetched e f rest he := by rw [hnone] at he; cases he
  served e h he := by rw [hnone] at he; cases he

theorem Current.frame (hc : Current a t flights n)
    (hentry : t'.cache.entries.get? n = t.cache.entries.get? n)
    (hresources : t'.cache.resources.get? n = t.cache.resources.get? n)
    (hregistry : t'.cache.registry = t.cache.registry)
    (hslots : ∀ g, t.cache.endOf n = some g → (t'.store.handles.slot? g).isSome →
      (t.store.handles.slot? g).isSome ∧
        t'.store.handles.ownValue g = t.store.handles.ownValue g) :
    Current a t' flights n where
  dated e task he := hc.dated e task (hentry ▸ he)
  fetched e f rest he hf hn htask hgen hwork := by
    rw [conversion, hregistry, hresources]
    exact hc.fetched e f rest (hentry ▸ he) hf hn htask hgen hwork
  served e h he hstate hh hthere := by
    rw [hentry] at he
    obtain ⟨hthere', hvalue⟩ := hslots h (by rw [endOf, he, Option.bind_some, hh]) hthere
    rw [hregistry, hresources, hvalue]
    exact hc.served e h he hstate hh hthere'

/-! ## The name that a step is about -/

theorem current_enters (he : Enters u t' name e e' started) (hloading : e.state = .loading)
    (hdated : ∀ task, e.task = some task → task.generation ≤ e.generation)
    (hfetched : ∀ f ∈ flights, f.load.name = name → e.task = some f.load.task →
      f.load.task.generation = e.generation → ∀ rest, f.work = some rest →
      (u.cache.conversion name).Leads a rest)
    (hfresh : ∀ f ∈ flights, f.load.task.id ≤ u.cache.nextTask) : Current a t' flights name := by
  have hself : ∀ f, t'.cache.entries.get? name = some f → f = e' := fun f hf => by
    rw [he.get?, if_pos rfl] at hf
    exact (Option.some.inj hf).symm
  have hgeneration : e'.generation = e.generation := by rw [he.entry]
  constructor
  case dated =>
    intro d task hd htask
    rw [hself d hd] at htask ⊢
    rw [hgeneration]
    rcases he.task with ⟨-, heq, hstarted⟩ | ⟨-, heq, -⟩
    · rw [htask, hstarted, Option.some.injEq] at heq
      rw [heq]
    · exact hdated task (heq ▸ htask)
  case fetched =>
    intro d f rest hd hf hn htask hgen hwork
    rw [hself d hd] at htask hgen
    rw [conversion, he.registry, he.resources]
    rcases he.task with ⟨-, heq, hstarted⟩ | ⟨-, heq, -⟩
    · rw [htask, hstarted, Option.some.injEq] at heq
      have hle := hfresh f hf
      rw [heq] at hle
      exact absurd hle (Nat.not_succ_le_self _)
    · exact hfetched f hf hn (heq ▸ htask) (hgen.trans hgeneration) rest hwork
  case served =>
    intro d h hd hstate
    rw [hself d hd, he.entry, hloading] at hstate
    cases hstate

/-! ## Steps -/

/-- Every load in flight was given its number. -/
def Numbered (t : Turn σ) (flights : List (Flight σ)) : Prop :=
  ∀ f ∈ flights, f.load.task.id ≤ t.cache.nextTask

theorem Waits.frame (hw : Waits t t' name e h old e' started) (hl : Links t issued held epoch)
    (hn : n ≠ name) (hc : Current a t flights n) : Current a t' flights n :=
  hc.frame (by rw [hw.get?, if_neg hn]) (by rw [hw.resources]) hw.registry
    fun g hg hthere => hl.slot_of_adds hw.adds hg hthere

theorem currents_gives (hl : Links t issued held epoch) (hfresh : Numbered t flights)
    (hc : ∀ n, Current a t flights n) (hg : Gives name t h t') (n : String) :
    Current a t' flights n := by
  cases hg with
  | again => exact hc n
  | waits t' e h e' started hentry _ hw =>
    by_cases hn : n = name
    · subst hn
      have hentry' : ∀ task, e.task = some task → t.cache.entries.get? n = some e := by
        intro task htask
        cases hget : t.cache.entries.get? n with
        | none =>
          rw [hentry, hget] at htask
          cases htask
        | some d => rw [hentry, hget, Option.getD_some]
      refine current_enters hw.enters rfl (fun task htask => ?_) (fun f hf hfn htask hgen rest => ?_)
        hfresh
      · exact (hc n).dated e task (hentry' task htask) htask
      · exact (hc n).fetched e f rest (hentry' _ htask) hf hfn htask hgen
    · exact hw.frame hl hn (hc n)

/-- A name may be served from another value before it is invalidated. -/
theorem currents_restarts (hl : Links t issued held epoch) (hwell : t.cache.entries.WellFormed)
    (hfresh : Numbered t flights) (hc : ∀ n, n ≠ name → Current a t flights n)
    (hdated : ∀ e task, t.cache.entries.get? name = some e → e.task = some task →
      task.generation ≤ e.generation)
    (hr : Restarts name t t') (n : String) : Current a t' flights n := by
  by_cases hn : n = name
  · subst hn
    cases hr with
    | absent hentry => exact current_of_get?_eq_none hentry
    | unused e hentry _ _ =>
      refine current_of_get?_eq_none ?_
      rw [Dict.get?_erase hwell, if_pos rfl]
    | waits t' e live h e' started hentry _ hw =>
      refine current_enters hw.enters rfl (fun task htask => ?_) (fun f hf _ htask hgen => ?_) hfresh
      · exact Nat.le_succ_of_le (hdated e task hentry htask)
      · have hle := hdated e f.load.task hentry htask
        rw [hgen] at hle
        exact absurd hle (Nat.not_succ_le_self _)
  · cases hr with
    | absent => exact hc n hn
    | unused e _ _ _ =>
      refine (hc n hn).frame ?_ rfl rfl fun g _ hthere => ⟨hthere, rfl⟩
      rw [Dict.get?_erase hwell, if_neg hn]
    | waits t' e live h e' started _ _ hw => exact hw.frame hl hn (hc n hn)

theorem currents_update (hl : Links t issued held epoch) (hwell : t.cache.entries.WellFormed)
    (hresources : t.cache.resources.WellFormed) (hfresh : Numbered t flights)
    (hc : ∀ n, Current a t flights n) (name : String) (value : Value) (n : String) :
    Current a ((update name value).run t).2 flights n := by
  rcases run_update name value t with ⟨-, hsame⟩ | ⟨-, hrestarts⟩
  · rw [hsame]
    exact hc n
  · refine currents_restarts (t := serving t name value) hl hwell hfresh (fun m hm => ?_)
      (hc name).dated hrestarts n
    refine (hc m).frame rfl ?_ rfl fun g _ hthere => ⟨hthere, rfl⟩
    exact Dict.get?_set_of_ne hresources hm

theorem currents_completes {load : Load} {outcome : Except Failure Value}
    (hl : Links t issued held epoch) (hwell : t.cache.entries.WellFormed)
    (hfresh : Numbered t flights) (hc : ∀ n, Current a t flights n)
    (hloading : ∀ e task, t.cache.entries.get? load.name = some e → e.task = some task →
      e.state = .loading)
    (hlive : ∀ e, t.cache.entries.get? load.name = some e → e.task = some load.task →
      e.generation = load.task.generation →
      LiveForm a t.cache.registry load.name (t.cache.resources.get? load.name) (liveValue outcome))
    (hcompletes : Completes load outcome t t') (n : String) : Current a t' flights n := by
  by_cases hn : n = load.name
  · subst hn
    cases hcompletes with
    | orphaned => exact hc _
    | delivered e h o hs hentry htask hgen _ hadds _ =>
      have hself : ∀ d, (t.cache.entries.insert load.name (e.loadedAt h)).get? load.name = some d →
          d = e.loadedAt h := fun d hd => by
        rw [Dict.get?_insert_self] at hd
        exact (Option.some.inj hd).symm
      constructor
      case dated =>
        intro d task hd htask
        rw [hself d hd] at htask
        cases htask
      case fetched =>
        intro d f rest hd _ _ htask
        rw [hself d hd] at htask
        cases htask
      case served =>
        intro d g hd _ hg _
        rw [hself d hd] at hg
        obtain rfl := Option.some.inj hg
        rw [hadds.ownValue_self, outcomeOf_fst]
        exact hlive e hentry htask hgen
    | dropped e h hs _ _ _ _ _ =>
      refine current_of_get?_eq_none ?_
      rw [Dict.get?_erase hwell, if_pos rfl]
    | abandoned e _ _ _ _ =>
      refine current_of_get?_eq_none ?_
      rw [Dict.get?_erase hwell, if_pos rfl]
    | again t' e e' started hentry htask _ _ he =>
      exact current_enters he (hloading e _ hentry htask) nofun nofun hfresh
  · cases hcompletes with
    | orphaned => exact hc n
    | delivered e h o hs _ _ _ _ hadds _ =>
      refine (hc n).frame ?_ rfl rfl fun g hg hthere => hl.slot_of_adds hadds hg hthere
      rw [Dict.get?_insert, if_neg hn]
    | dropped e h hs _ _ _ _ hadds =>
      refine (hc n).frame ?_ rfl rfl fun g hg hthere => hl.slot_of_adds hadds hg hthere
      rw [Dict.get?_erase hwell, if_neg hn]
    | abandoned e _ _ _ _ =>
      refine (hc n).frame ?_ rfl rfl fun g _ hthere => ⟨hthere, rfl⟩
      rw [Dict.get?_erase hwell, if_neg hn]
    | again t' e e' started _ _ _ _ he =>
      refine (hc n).frame ?_ ?_ he.registry fun g _ hthere => ?_
      · rw [he.get?, if_neg hn]
      · rw [he.resources]
      · rw [he.store] at hthere ⊢
        exact ⟨hthere, rfl⟩

end Cache

namespace System

variable {σ : Type} {s s' : System σ} {t : Turn σ}

/-- What loads may have been answered: handles that were given out since the cache was last
cleared, and references to objects that were made. -/
def answers (s : System σ) : Answers σ where
  handle name h := ⟨name, h, s.epoch⟩ ∈ s.issued
  object item ref := (ref, item) ∈ s.made

theorem numbered_of_orderly (ho : Cache.Orderly t s.tickets s.epoch 0) :
    Cache.Numbered t s.flights := fun f hf =>
  ho.tickets.fresh (f.load, f.epoch)
    (List.mem_append_left _ (List.mem_map_of_mem (f := fun f => (f.load, f.epoch)) hf))

theorem handle_ask (name : String) {n : String} {h : Handle} (hh : s.answers.handle n h) :
    (s.ask name).answers.handle n h :=
  List.mem_append_left _ hh

variable [ObjectClass σ]

/-- Every entry has, or will get from its load, the live form of the value that is served now. -/
def Current (s : System σ) : Prop := ∀ n, Cache.Current s.answers s.turn s.flights n

variable {a : Answers σ}

/-- Loads that have just been put in flight have read nothing. -/
theorem current_after (hc : ∀ n, Cache.Current a t s.flights n) (n : String) :
    Cache.Current a (s.after t).turn (s.after t).flights n := by
  have hn : Cache.Current a (s.after t).turn s.flights n :=
    ⟨(hc n).dated, (hc n).fetched, (hc n).served⟩
  refine hn.of_flights fun f hf hwork => ?_
  rcases List.mem_append.mp hf with hf | hf
  · exact hf
  · obtain ⟨load, -, rfl⟩ := List.mem_map.mp hf
    exact absurd rfl hwork

theorem current_ask (ho : s.Orderly) (hl : s.Links) (name : String)
    (hc : ∀ n, Cache.Current (s.ask name).answers s.turn s.flights n) : (s.ask name).Current :=
  current_after (Cache.currents_gives hl (numbered_of_orderly ho) hc
    (Cache.run_getResource name s.turn))

theorem current_goOn {before after : List (Flight σ)} {f : Flight σ} {rest : Conversion σ Value}
    (hf : s.flights = before ++ f :: after) (hc : ∀ n, Cache.Current a s.turn s.flights n)
    (hrest : ∀ e, s.cache.entries.get? f.load.name = some e → e.task = some f.load.task →
      f.load.task.generation = e.generation → (s.cache.conversion f.load.name).Leads a rest)
    (n : String) : Cache.Current a s.turn (s.goOn before after (f.working rest)).flights n where
  dated := (hc n).dated
  fetched e g rest' he hg hn htask hgen hwork := by
    have hmem : g = f.working rest ∨ g ∈ s.flights := by
      rw [hf]
      simp only [goOn, List.mem_append, List.mem_cons] at hg ⊢
      tauto
    rcases hmem with rfl | hmem
    · obtain rfl := Option.some.inj hwork
      subst hn
      exact hrest e he htask hgen
    · exact (hc n).fetched e g rest' he hmem hn htask hgen hwork
  served := (hc n).served

theorem current_answered (hc : s.Current) {before after : List (Flight σ)} {f : Flight σ}
    {x rest : Conversion σ Value} (hf : s.flights = before ++ f :: after) (hwork : f.work = some x)
    (hhandle : ∀ n h, s.answers.handle n h → a.handle n h)
    (hobject : ∀ item ref, s.answers.object item ref → a.object item ref)
    (hanswered : x.Answered a rest) (n : String) :
    Cache.Current a s.turn (s.goOn before after (f.working rest)).flights n := by
  have hmono : ∀ n, Cache.Current a s.turn s.flights n := fun n => (hc n).mono hhandle hobject
  refine current_goOn hf hmono (fun e he htask hgen => ?_) n
  have hmem : f ∈ s.flights := by
    rw [hf]
    exact List.mem_append_right _ (List.mem_cons_self ..)
  exact ((hmono f.load.name).fetched e f x he hmem rfl htask hgen hwork).tail hanswered

theorem current_complete (ho : s.Orderly) (hl : s.Links) (hc : s.Current)
    {before after : List (Flight σ)} {f : Flight σ} {rest : Conversion σ Value}
    {outcome : Except Failure Value} (hf : s.flights = before ++ f :: after)
    (hwork : f.work = some rest) (houtcome : rest.outcome? = some outcome) :
    (act { s with flights := before ++ after }
      (Cache.completeLoad f.load outcome >>= fun _ => Cache.endLoad)).Current := by
  have hmem : f ∈ s.flights := by
    rw [hf]
    exact List.mem_append_right _ (List.mem_cons_self ..)
  have hloading : ∀ e task, s.cache.entries.get? f.load.name = some e → e.task = some task →
      e.state = .loading := by
    intro e task he htask
    rcases ho.tidy.shaped _ e he with hw | hs
    · exact hw.state
    · rw [hs.task] at htask
      cases htask
  have hcompleted := Cache.currents_completes hl ho.tidy.wellFormed (numbered_of_orderly ho) hc
    hloading (fun e he htask hgen => ⟨outcome, ⟨rest, (hc f.load.name).fetched e f rest he hmem rfl
      htask hgen.symm hwork, houtcome⟩, rfl⟩) (Cache.run_completeLoad f.load outcome s.turn)
  have hended : ∀ n, Cache.Current s.answers
      ((Cache.completeLoad f.load outcome >>= fun _ => Cache.endLoad).run s.turn).2 s.flights n :=
    fun n => ⟨(hcompleted n).dated, (hcompleted n).fetched, (hcompleted n).served⟩
  refine current_after (s := { s with flights := before ++ after }) fun n =>
    (hended n).of_flights fun g hg _ => ?_
  rw [hf]
  simp only [List.mem_append, List.mem_cons] at hg ⊢
  tauto

omit [ObjectClass σ] in
theorem resources_ask (name : String) : (s.ask name).cache.resources = s.cache.resources :=
  (Cache.run_getResource name s.turn).resources

theorem wellFormed_resources_step (hw : s.cache.resources.WellFormed) (hstep : Step s s') :
    s'.cache.resources.WellFormed := by
  cases hstep with
  | getResource name => exact (resources_ask name).symm ▸ hw
  | invalidate name => exact (Cache.run_invalidate name s.turn).resources.symm ▸ hw
  | setResources d =>
    exact Cache.setResources_induction (t := s.turn) (P := fun t => t.cache.resources.WellFormed)
      (fun _ n v hu => Cache.wellFormed_resources_update hu n v) d hw
  | clear =>
    obtain ⟨hs, signals, -, hrun⟩ := Cache.run_clear s.turn
    have hempty : (Cache.clear.run s.turn).2.cache.resources = ∅ := by rw [hrun]
    exact hempty.symm ▸ Dict.wellFormed_empty
  | request before after f name next hf _ => exact (resources_ask (s := s.goOn ..) name).symm ▸ hw
  | complete before after f rest outcome hf _ _ =>
    exact (Cache.run_completeLoad f.load outcome s.turn).resources.symm ▸ hw
  | drainEvents => exact hw
  | newHandle => exact hw
  | hold => exact hw
  | drop => exact hw
  | free => exact hw
  | read => exact hw
  | make => exact hw

theorem current_step (ho : s.Orderly) (hl : s.Links) (hw : s.cache.resources.WellFormed)
    (hc : s.Current) (hstep : Step s s') : s'.Current := by
  cases hstep with
  | getResource name =>
    exact current_ask ho hl name fun n => (hc n).mono (fun _ _ => handle_ask name) fun _ _ h => h
  | invalidate name =>
    exact current_after (Cache.currents_restarts hl ho.tidy.wellFormed (numbered_of_orderly ho)
      (fun n _ => hc n) (hc name).dated (Cache.run_invalidate name s.turn))
  | setResources d =>
    refine current_after (Cache.setResources_induction (t := s.turn)
      (P := fun t => Cache.Orderly t s.tickets s.epoch 0 ∧ Cache.Links t s.issued s.held s.epoch ∧
        t.cache.resources.WellFormed ∧ ∀ n, Cache.Current s.answers t s.flights n)
      (fun u n v hu => ?_) d ⟨ho, hl, hw, hc⟩).2.2.2
    obtain ⟨ho, hl, hw, hc⟩ := hu
    exact ⟨Cache.orderly_update ho n v, hl.update ho.tidy.wellFormed n v,
      Cache.wellFormed_resources_update hw n v,
      Cache.currents_update hl ho.tidy.wellFormed hw (numbered_of_orderly ho) hc n v⟩
  | clear =>
    obtain ⟨hs, signals, -, hrun⟩ := Cache.run_clear s.turn
    refine current_after (s := { s with epoch := s.epoch + 1 }) fun n =>
      Cache.current_of_get?_eq_none ?_
    have hempty : (Cache.clear.run s.turn).2.cache.entries = ∅ := by rw [hrun]
    exact (congrArg (·.get? n) hempty).trans Dict.get?_empty
  | drainEvents => exact fun n => ⟨(hc n).dated, (hc n).fetched, (hc n).served⟩
  | newHandle name value =>
    have hadds := Handles.adds_new s.store.handles name value
    exact fun n => (hc n).frame rfl rfl rfl fun g hg hthere => hl.slot_of_adds hadds hg hthere
  | hold g hthere => exact hc
  | drop link => exact hc
  | free store hfrees =>
    refine fun n => (hc n).frame rfl rfl rfl fun g _ hthere => ?_
    have hslot := Store.slot?_of_isSome hfrees hthere
    refine ⟨hslot ▸ hthere, ?_⟩
    exact congrArg (fun slot => (slot.map (·.value)).getD Value.null) hslot
  | read before after f hf _ =>
    have hread := fun n => current_goOn hf hc
      (fun _ _ _ _ => Relation.ReflTransGen.refl (a := s.cache.conversion f.load.name)) n
    exact hread
  | request before after f name next hf hwork =>
    exact current_ask (orderly_goOn ho hf _) hl name (current_answered hc hf hwork
      (fun _ _ => handle_ask (s := s.goOn before after _) name) (fun _ _ hr => hr)
      (.handle name next _ (List.mem_append_right _ (List.mem_singleton.mpr rfl))))
  | make before after f item next hf hwork =>
    have hmade := current_answered (a := ((s.goOn before after
      (f.working (next (s.reference item)))).keep item).answers) hc hf hwork (fun _ _ hh => hh)
      (fun _ _ hr => List.mem_append_left _ hr)
      (.object item next _ (List.mem_append_right _ (List.mem_singleton.mpr rfl)))
    exact current_after (s := s.goOn before after (f.working (next (s.reference item))))
      fun n => ⟨(hmade n).dated, (hmade n).fetched, (hmade n).served⟩
  | complete before after f rest outcome hf hwork houtcome =>
    exact current_complete ho hl hc hf hwork houtcome

theorem Reachable.current (hs : Reachable s) : s.cache.resources.WellFormed ∧ s.Current := by
  induction hs with
  | start id registry =>
    exact ⟨Dict.wellFormed_empty, fun n => Cache.current_of_get?_eq_none Dict.get?_empty⟩
  | step hs hstep ih =>
    exact ⟨wellFormed_resources_step ih.1 hstep,
      current_step hs.orderly hs.links ih.1 ih.2 hstep⟩

/-- What holders of handles see. -/
structure NoLostUpdate (s : System σ) : Prop where
  /-- A handle that a load has filled has the live form of the value that is served now. -/
  served : ∀ n e h, s.cache.entries.get? n = some e → e.state = .loaded → e.handle = some h →
    (s.store.handles.slot? h).isSome →
    LiveForm s.answers s.cache.registry n (s.cache.resources.get? n) (s.store.handles.ownValue h)
  /-- It has no value when none is served. -/
  absent : ∀ n e h, s.cache.entries.get? n = some e → e.state = .loaded → e.handle = some h →
    (s.store.handles.slot? h).isSome → s.cache.resources.get? n = none →
    s.store.handles.ownValue h = .null
  /-- What the program holds is there. -/
  kept : ∀ h, (∃ link ∈ h.links, link ∈ s.held) → (s.store.handles.slot? h).isSome
  /-- What was given out since the cache was last cleared, and is still held, leads to the handle of
  the entry. -/
  latest : ∀ x ∈ s.issued, x.epoch = s.epoch → (s.store.handles.slot? x.handle).isSome →
    ∃ e, s.cache.entries.get? x.name = some e ∧ e.handle = some (s.store.handles.latest x.handle)
  /-- So its holders see the value that is served now, once it was loaded. -/
  seen : ∀ x ∈ s.issued, x.epoch = s.epoch → (s.store.handles.slot? x.handle).isSome →
    s.cache.loadState x.name = .loaded →
    LiveForm s.answers s.cache.registry x.name (s.cache.resources.get? x.name)
      (s.store.handles.value x.handle)

/-- **No update is lost**, in any state. -/
theorem Reachable.no_lost_update (hs : Reachable s) : s.NoLostUpdate := by
  have hc := hs.current.2
  have hl : Linked s.store.handles s.cache.endOf s.issued s.held s.epoch := hs.links
  have hlatest : ∀ x ∈ s.issued, x.epoch = s.epoch → (s.store.handles.slot? x.handle).isSome →
      (s.store.handles.slot? (s.store.handles.latest x.handle)).isSome ∧
      ∃ e, s.cache.entries.get? x.name = some e ∧
        e.handle = some (s.store.handles.latest x.handle) := by
    intro x hx hepoch hthere
    obtain ⟨h, hend, hleads⟩ := hl.leads x hx hepoch hthere
    obtain ⟨e, he, hh⟩ := Option.bind_eq_some_iff.mp hend
    rw [hl.forward.latest_eq hleads (hl.last _ h hend)]
    exact ⟨hl.forward.isSome_of_leadsTo hleads hthere, e, he, hh⟩
  constructor
  case served => exact fun n => (hc n).served
  case absent =>
    intro n e h he hstate hh hthere hnone
    have hlive := (hc n).served e h he hstate hh hthere
    exact liveForm_none.mp (hnone ▸ hlive)
  case kept =>
    rintro h ⟨link, hlink, hheld⟩
    obtain ⟨i, hi, rfl⟩ := List.mem_map.mp hlink
    exact hl.there h i (Option.mem_toList.mp hi) hheld
  case latest => exact fun x hx hepoch hthere => (hlatest x hx hepoch hthere).2
  case seen =>
    intro x hx hepoch hthere hloaded
    obtain ⟨hthere', e, he, hh⟩ := hlatest x hx hepoch hthere
    rw [Cache.loadState, he] at hloaded
    exact (hc x.name).served e _ he hloaded hh hthere'

/-! ## A load that is overtaken -/

/-- The first load, which has read `false` by the time that `true` is served. -/
def firstLoad : Flight Item :=
  Flight.working ⟨⟨"a", ⟨1, 0⟩⟩, 0, none⟩ (.done (.bool false))

/-- The load that starts when the first one completes. -/
def secondLoad : Flight Item :=
  Flight.working ⟨⟨"a", ⟨3, 1⟩⟩, 0, none⟩ (.done (.bool true))

/-- A name was asked for, and its load has read the value that was served first. -/
def firstRead : System Item :=
  ((start 0 .empty).act (Cache.setResources ⟨.flat, [("a", .bool false)]⟩)).take "a"
    |>.goOn [] [] firstLoad

/-- Another value is served, the first load completes, and the second one reads that value. -/
def secondRead : System Item :=
  act { firstRead.act (Cache.setResources ⟨.flat, [("a", .bool true)]⟩) with flights := [] }
    (Cache.completeLoad firstLoad.load (.ok (.bool false)) >>= fun _ => Cache.endLoad)
    |>.goOn [] [] secondLoad

/-- The second load completes. -/
def reloaded : System Item :=
  act { secondRead with flights := [] }
    (Cache.completeLoad secondLoad.load (.ok (.bool true)) >>= fun _ => Cache.endLoad)

theorem reachable_reloaded : Reachable reloaded := by
  have hfirst : Reachable firstRead :=
    (((Reachable.start 0 .empty).step (.setResources _)).step (.getResource "a")).step
      (.read [] [] ⟨⟨"a", ⟨1, 0⟩⟩, 0, none⟩ rfl rfl)
  have hsecond : Reachable secondRead :=
    ((hfirst.step (.setResources _)).step (.complete [] [] firstLoad _ _ rfl rfl rfl)).step
      (.read [] [] ⟨⟨"a", ⟨3, 1⟩⟩, 0, none⟩ rfl rfl)
  exact hsecond.step (.complete [] [] secondLoad _ _ rfl rfl rfl)

/-- The handle that was given out first comes to the value that is served last. -/
theorem no_lost_update_reloaded :
    reloaded.issued.map (·.handle) = [⟨"a", some 0⟩] ∧
      reloaded.store.handles.value ⟨"a", some 0⟩ = .bool true ∧ Reachable reloaded ∧
      reloaded.NoLostUpdate :=
  ⟨rfl, rfl, reachable_reloaded, reachable_reloaded.no_lost_update⟩

end System

end ResourceTree
