import ResourceTree.Example.Item
import ResourceTree.Proofs.Cache.System

/-!
# Entries and their loads

* `Tickets`: the tasks that entries hold are those of the loads that started since the cache was
  last cleared, and no two loads have the same number;
* `Tidy`: every entry is waiting or settled, and waits on a signal of its own;
* `tidy_gives`, `tidy_restarts`, `tidy_completes`: what the cache does keeps its entries tidy;
* **`Reachable.entries_follow_loads`**: in every state, entries and loads in flight match.
-/

namespace ResourceTree

/-! ## Tickets -/

/-- The loads in flight, each with its epoch, against the tasks that entries hold: an entry holds
the task of a load just if the load is of the present epoch. -/
structure Tickets (tasks : String → Option LoadTask) (loads : List (Load × Nat))
    (epoch next : Nat) : Prop where
  held : ∀ name task, tasks name = some task ↔ (⟨name, task⟩, epoch) ∈ loads
  past : ∀ x ∈ loads, x.2 ≤ epoch
  fresh : ∀ x ∈ loads, x.1.task.id ≤ next
  unique : (loads.map fun x => x.1.task.id).Nodup

namespace Tickets

variable {tasks tasks' : String → Option LoadTask} {loads before after : List (Load × Nat)}
  {x : Load × Nat} {epoch next : Nat} {name : String} {task : LoadTask}

theorem eq_of_mem {y : Load × Nat} (h : Tickets tasks loads epoch next) (hx : x ∈ loads)
    (hy : y ∈ loads) (hid : x.1.task.id = y.1.task.id) : x = y :=
  List.inj_on_of_nodup_map h.unique hx hy hid

theorem skip (h : Tickets tasks loads epoch next) : Tickets tasks loads epoch (next + 1) :=
  { h with fresh := fun x hx => Nat.le_succ_of_le (h.fresh x hx) }

theorem launch (h : Tickets tasks loads epoch next) (hnone : tasks name = none)
    (htask : task.id = next + 1)
    (hnew : ∀ n, tasks' n = if n = name then some task else tasks n) :
    Tickets tasks' (loads ++ [(⟨name, task⟩, epoch)]) epoch (next + 1) where
  held n u := by
    rw [hnew, List.mem_append, List.mem_singleton, Prod.mk.injEq, Load.mk.injEq, and_iff_left rfl]
    split_ifs with hn
    · rw [Option.some.injEq, ← h.held, hn, hnone]
      simp [eq_comm]
    · simp [h.held, hn]
  past x hx := by
    rcases List.mem_append.mp hx with hx | hx
    · exact h.past x hx
    · rw [List.mem_singleton.mp hx]
  fresh x hx := by
    rcases List.mem_append.mp hx with hx | hx
    · exact Nat.le_succ_of_le (h.fresh x hx)
    · rw [List.mem_singleton.mp hx, htask]
  unique := by
    rw [List.map_append, List.nodup_append]
    refine ⟨h.unique, by simp, fun i hi j hj => ?_⟩
    obtain ⟨x, hx, rfl⟩ := List.mem_map.mp hi
    have hle := h.fresh x hx
    simp only [List.map_cons, List.map_nil, List.mem_singleton] at hj
    omega

theorem finish (h : Tickets tasks (before ++ x :: after) epoch next)
    (hheld : tasks x.1.name = some x.1.task)
    (hnew : ∀ n, tasks' n = if n = x.1.name then none else tasks n) :
    Tickets tasks' (before ++ after) epoch next := by
  have hperm : (before ++ x :: after).Perm (x :: (before ++ after)) := List.perm_middle
  have hunique : ((x :: (before ++ after)).map fun x => x.1.task.id).Nodup :=
    (hperm.map _).nodup_iff.mp h.unique
  have hx : x = (⟨x.1.name, x.1.task⟩, epoch) :=
    h.eq_of_mem (by simp) ((h.held _ _).mp hheld) rfl
  have hsub : ∀ y ∈ before ++ after, y ∈ before ++ x :: after := fun y hy =>
    hperm.mem_iff.mpr (List.mem_cons_of_mem _ hy)
  have hother : ∀ y ∈ before ++ after, y.1.task.id ≠ x.1.task.id := fun y hy he =>
    (List.nodup_cons.mp hunique).1 (List.mem_map.mpr ⟨y, hy, he⟩)
  refine ⟨fun n u => ?_, fun y hy => h.past y (hsub y hy), fun y hy => h.fresh y (hsub y hy),
    (List.nodup_cons.mp hunique).2⟩
  rw [hnew]
  split_ifs with hn
  · refine ⟨nofun, fun hmem => ?_⟩
    have htask := (h.held _ _).mpr (hsub _ hmem)
    rw [hn, hheld, Option.some.injEq] at htask
    exact absurd (congrArg LoadTask.id htask.symm) (hother _ hmem)
  · rw [h.held, hperm.mem_iff, List.mem_cons]
    refine ⟨fun hmem => hmem.resolve_left fun he => hn ?_, .inr⟩
    rw [← he]

theorem discard (h : Tickets tasks (before ++ x :: after) epoch next)
    (hheld : tasks x.1.name ≠ some x.1.task) :
    Tickets tasks (before ++ after) epoch next := by
  have hperm : (before ++ x :: after).Perm (x :: (before ++ after)) := List.perm_middle
  have hsub : ∀ y ∈ before ++ after, y ∈ before ++ x :: after := fun y hy =>
    hperm.mem_iff.mpr (List.mem_cons_of_mem _ hy)
  refine ⟨fun n u => ?_, fun y hy => h.past y (hsub y hy), fun y hy => h.fresh y (hsub y hy),
    (List.nodup_cons.mp ((hperm.map _).nodup_iff.mp h.unique)).2⟩
  rw [h.held, hperm.mem_iff, List.mem_cons]
  refine ⟨fun hmem => hmem.resolve_left fun he => hheld ?_, .inr⟩
  rw [← he]
  exact (h.held n u).mpr (by rw [he]; simp)

theorem start (epoch next : Nat) : Tickets (fun _ => none) [] epoch next :=
  ⟨by simp, by simp, by simp, List.nodup_nil⟩

theorem clear (h : Tickets tasks loads epoch next) :
    Tickets (fun _ => none) loads (epoch + 1) next where
  held name task := by
    refine ⟨nofun, fun hmem => ?_⟩
    exact absurd (h.past _ hmem) (Nat.not_succ_le_self _)
  past x hx := Nat.le_succ_of_le (h.past x hx)
  fresh := h.fresh
  unique := h.unique

/-- A load is of a past epoch just if its name does not hold it. -/
theorem lt_epoch_iff (h : Tickets tasks loads epoch next) (hx : x ∈ loads) :
    x.2 < epoch ↔ tasks x.1.name ≠ some x.1.task := by
  have hle := h.past x hx
  rw [ne_eq, h.held]
  constructor
  · intro hlt hmem
    rw [h.eq_of_mem hx hmem rfl] at hlt
    exact Nat.lt_irrefl _ hlt
  · intro hnot
    refine Nat.lt_of_le_of_ne hle fun he => hnot ?_
    rw [← he]
    exact hx

theorem count_eq_one (h : Tickets tasks loads epoch next) (hheld : tasks name = some task) :
    (loads.map Prod.fst).count ⟨name, task⟩ = 1 := by
  have hnodup : ((loads.map Prod.fst).map fun load => load.task.id).Nodup := by
    rw [List.map_map]
    exact h.unique
  exact List.count_eq_one_of_mem (List.Nodup.of_map _ hnodup)
    (List.mem_map_of_mem (f := Prod.fst) ((h.held _ _).mp hheld))

/-- Of the loads for a name, it holds at most one. -/
theorem countP_le_one (h : Tickets tasks loads epoch next) (name : String) :
    (loads.map Prod.fst).countP
      (fun load => load.name = name ∧ tasks load.name = some load.task) ≤ 1 := by
  cases htask : tasks name with
  | none =>
    rw [List.countP_eq_zero.mpr fun load _ => ?_]
    · exact Nat.zero_le 1
    · rintro hload
      obtain ⟨rfl, hheld⟩ := of_decide_eq_true hload
      rw [htask] at hheld
      cases hheld
  | some task =>
    rw [← h.count_eq_one htask]
    refine List.countP_mono_left fun load _ hload => ?_
    obtain ⟨hname, hheld⟩ := of_decide_eq_true hload
    rw [hname, htask, Option.some.injEq] at hheld
    rw [beq_iff_eq, hheld, ← hname]

end Tickets

/-! ## Entries -/

namespace Entry

/-- The entry waits for its load. -/
structure Waiting (e : Entry) (signals : Array Signal) : Prop where
  state : e.state = .loading
  pending : ∃ i, e.pending = some i ∧ signals[i]? = some .unset
  task : ∃ task, e.task = some task

/-- The entry has got its value. -/
structure Settled (e : Entry) : Prop where
  state : e.state = .loaded
  pending : e.pending = none
  task : e.task = none

theorem Waiting.not_settled {e : Entry} {signals : Array Signal} (hw : e.Waiting signals) :
    ¬ e.Settled := by
  intro hs
  have hstate := hw.state
  rw [hs.state] at hstate
  cases hstate

end Entry

namespace Cache

variable {σ : Type} {c c' : Cache σ} {t t' : Turn σ} {loads loads' : List (Load × Nat)}
  {epoch : Nat} {name : String} {e e' : Entry} {h : Handle} {old : Option Handle}
  {started : Option LoadTask}

/-- The task that the entry of a name holds. -/
def taskOf (c : Cache σ) (name : String) : Option LoadTask :=
  (c.entries.get? name).bind (·.task)

/-- The entry of its name holds a load. -/
def Holds (c : Cache σ) (load : Load) : Prop := c.taskOf load.name = some load.task

instance (c : Cache σ) (load : Load) : Decidable (c.Holds load) :=
  inferInstanceAs (Decidable (c.taskOf load.name = some load.task))

/-- Entries are waiting or settled. They wait on signals of their own. -/
structure Tidy (c : Cache σ) : Prop where
  wellFormed : c.entries.WellFormed
  shaped : ∀ n e, c.entries.get? n = some e → e.Waiting c.signals ∨ e.Settled
  apart : ∀ n m e f i, c.entries.get? n = some e → c.entries.get? m = some f →
    e.pending = some i → f.pending = some i → n = m

theorem tidy_of_empty (hempty : c.entries = ∅) : c.Tidy := by
  refine ⟨hempty ▸ Dict.wellFormed_empty, fun n e hn => ?_, fun n m e f i hn => ?_⟩
  all_goals
    rw [hempty, Dict.get?_empty] at hn
    cases hn

theorem taskOf_of_empty (hempty : c.entries = ∅) : c.taskOf = fun _ => none := by
  funext n
  rw [taskOf, hempty, Dict.get?_empty]
  rfl

theorem Tidy.pending (hc : c.Tidy) (he : c.entries.get? name = some e) {i : Nat}
    (hi : e.pending = some i) : c.signals[i]? = some .unset := by
  rcases hc.shaped name e he with hw | hs
  · obtain ⟨j, hj, hunset⟩ := hw.pending
    rw [hi, Option.some.injEq] at hj
    rw [hj, hunset]
  · rw [hs.pending] at hi
    cases hi

theorem Tidy.change (hc : c.Tidy) {x : Option Entry}
    (hget : ∀ n, c'.entries.get? n = if n = name then x else c.entries.get? n)
    (hwell : c'.entries.WellFormed)
    (hsignals : ∀ m f i, m ≠ name → c.entries.get? m = some f → f.pending = some i →
      c'.signals[i]? = c.signals[i]?)
    (hshaped : ∀ e, x = some e → e.Waiting c'.signals ∨ e.Settled)
    (hapart : ∀ e m f i, x = some e → m ≠ name → c.entries.get? m = some f →
      e.pending = some i → f.pending ≠ some i) :
    c'.Tidy where
  wellFormed := hwell
  shaped n e hn := by
    rw [hget] at hn
    split_ifs at hn with heq
    · exact hshaped e hn
    · refine (hc.shaped n e hn).imp_left fun hw => ⟨hw.state, ?_, hw.task⟩
      obtain ⟨i, hi, hunset⟩ := hw.pending
      exact ⟨i, hi, (hsignals n e i heq hn hi).trans hunset⟩
  apart n m e f i hn hm he hf := by
    rw [hget] at hn hm
    split_ifs at hn hm with hnname hmname hmname
    · rw [hnname, hmname]
    · exact absurd hf (hapart e m f i hn hmname hm he)
    · exact absurd he (hapart f n e i hm hnname hn hf)
    · exact hc.apart n m e f i hn hm he hf

theorem Tidy.enters (hc : t.cache.Tidy) (he : Enters t t' name e e' started) {i : Nat}
    (hloading : e.state = .loading) (hpending : e.pending = some i)
    (hunset : t.cache.signals[i]? = some .unset)
    (hapart : ∀ m f, m ≠ name → t.cache.entries.get? m = some f → f.pending ≠ some i) :
    t'.cache.Tidy := by
  have hentry := he.entry
  refine hc.change (fun n => he.get? n) (he.wellFormed hc.wellFormed)
    (fun m f j _ _ _ => by rw [he.signals]) ?_ ?_
  · rintro _ ⟨⟩
    refine .inl ⟨by rw [hentry]; exact hloading, ⟨i, ?_, ?_⟩, ?_⟩
    · rw [hentry]
      exact hpending
    · rw [he.signals]
      exact hunset
    · rcases he.task with ⟨-, htask, hstarted⟩ | ⟨htask, heq, -⟩
      · exact ⟨_, htask.trans hstarted⟩
      · rw [heq]
        exact htask
  · rintro _ m f j ⟨⟩ hm hf hj
    rw [hentry] at hj
    rw [← hj]
    exact hpending ▸ hapart m f hm hf

theorem taskOf_of_get? {x : Option Entry}
    (hget : ∀ n, c'.entries.get? n = if n = name then x else c.entries.get? n) (n : String) :
    c'.taskOf n = if n = name then x.bind (·.task) else c.taskOf n := by
  rw [taskOf, hget, taskOf]
  split_ifs <;> rfl

theorem tickets_enters {tasks : String → Option LoadTask}
    (ht : Tickets tasks loads epoch t.cache.nextTask)
    (htasks : ∀ n, tasks n = if n = name then e.task else t.cache.taskOf n)
    (he : Enters t t' name e e' started) :
    Tickets t'.cache.taskOf (loads ++ (launched name started).map (·, epoch)) epoch
      t'.cache.nextTask := by
  have hnew := taskOf_of_get? he.get?
  have hname : tasks name = e.task := by rw [htasks, if_pos rfl]
  rw [he.nextTask]
  rcases he.task with ⟨hnone, htask, rfl⟩ | ⟨-, htask, rfl⟩
  · refine ht.launch (hname.trans hnone) rfl fun n => ?_
    rw [hnew, htasks, Option.bind_some, htask]
    split_ifs <;> rfl
  · have hsame : t'.cache.taskOf = tasks := by
      funext n
      rw [hnew, htasks, Option.bind_some, htask]
    rw [hsame]
    simpa [launched] using ht.skip

theorem Tidy.signalsFor (hc : c.Tidy) (e : Entry) :
    ({ c with signals := c.signalsFor e } : Cache σ).Tidy := by
  refine ⟨hc.wellFormed, fun n f hf => (hc.shaped n f hf).imp_left fun hw => ?_, hc.apart⟩
  obtain ⟨i, hi, hunset⟩ := hw.pending
  refine ⟨hw.state, ⟨i, hi, ?_⟩, hw.task⟩
  rw [Cache.signalsFor]
  split_ifs
  · exact hunset
  · rw [Array.getElem?_push]
    split_ifs
    · rfl
    · exact hunset

theorem Tidy.waits (hc : t.cache.Tidy) (hw : Waits t t' name e h old e' started)
    (hpending : e.pending = (t.cache.entries.get? name).bind (·.pending)) : t'.cache.Tidy := by
  have hother : ∀ m f i, m ≠ name → t.cache.entries.get? m = some f → f.pending = some i →
      i ≠ t.cache.signalOf e := by
    intro m f i hm hf hi heq
    cases he : e.pending with
    | none =>
      rw [signalOf, he, Option.getD_none] at heq
      have hunset := hc.pending hf hi
      rw [Array.getElem?_eq_none (Nat.le_of_eq heq.symm)] at hunset
      cases hunset
    | some j =>
      rw [signalOf, he, Option.getD_some] at heq
      obtain ⟨d, hd, hj⟩ := Option.bind_eq_some_iff.mp (hpending.symm.trans he)
      exact hm (hc.apart m name f d i hf hd hi (heq ▸ hj))
  refine Tidy.enters (hc.signalsFor e) hw.enters rfl rfl ?_
    fun m f hm hf hi => hother m f _ hm hf hi rfl
  cases he : e.pending with
  | none => simp [signalOf, prepared, Cache.signalsFor, he]
  | some j =>
    obtain ⟨d, hd, hj⟩ := Option.bind_eq_some_iff.mp (hpending.symm.trans he)
    simp [signalOf, prepared, Cache.signalsFor, he, hc.pending hd hj]

/-! ## Steps -/

/-- Entries match the loads in flight: those given, which have their epochs, and those that the turn
has spawned. Some loads may be counted that have just completed. -/
structure Orderly (t : Turn σ) (loads : List (Load × Nat)) (epoch completed : Nat) : Prop where
  tidy : t.cache.Tidy
  tickets : Tickets t.cache.taskOf (loads ++ t.spawned.map (·, epoch)) epoch t.cache.nextTask
  counted : t.cache.outstanding = loads.length + t.spawned.length + completed

variable {completed : Nat}

theorem Orderly.of_eq (ho : Orderly t loads epoch completed) (hcache : t'.cache = t.cache)
    (hloads : loads' ++ t'.spawned.map (·, epoch) = loads ++ t.spawned.map (·, epoch)) :
    Orderly t' loads' epoch completed := by
  have hlength := congrArg List.length hloads
  simp only [List.length_append, List.length_map] at hlength
  refine ⟨hcache ▸ ho.tidy, ?_, ?_⟩
  · rw [hloads, hcache]
    exact ho.tickets
  · rw [hcache, ho.counted, hlength]

theorem Orderly.waits (ho : Orderly t loads epoch completed)
    (hw : Waits t t' name e h old e' started)
    (hpending : e.pending = (t.cache.entries.get? name).bind (·.pending))
    (htask : e.task = t.cache.taskOf name) : Orderly t' loads epoch completed where
  tidy := ho.tidy.waits hw hpending
  tickets := by
    have htasks : ∀ n, t.cache.taskOf n =
        if n = name then (e.waitingAt h (t.cache.signalOf e)).task
        else (prepared t t'.store.handles e).cache.taskOf n := by
      intro n
      split_ifs with hn
      · rw [hn]
        exact htask.symm
      · rfl
    have ht := tickets_enters (t := prepared t t'.store.handles e) ho.tickets htasks hw.enters
    rwa [List.append_assoc, ← List.map_append, ← hw.spawned] at ht
  counted := by
    rw [hw.outstanding, hw.spawned, List.length_append, ho.counted]
    omega

theorem orderly_gives (ho : Orderly t loads epoch completed) (hg : Gives name t h t') :
    Orderly t' loads epoch completed := by
  cases hg with
  | again => exact ho
  | waits t' e h e' started hentry _ hwaits =>
    refine ho.waits hwaits ?_ ?_
    · rw [hentry]
      cases t.cache.entries.get? name <;> rfl
    · rw [hentry, taskOf]
      cases t.cache.entries.get? name <;> rfl

theorem Tidy.erase (hc : c.Tidy) (hentries : c'.entries = c.entries.erase name)
    (hsignals : ∀ m f i, m ≠ name → c.entries.get? m = some f → f.pending = some i →
      c'.signals[i]? = c.signals[i]?) :
    c'.Tidy := by
  refine hc.change (x := none) (fun n => ?_) ?_ hsignals (by simp) (by simp)
  · rw [hentries, Dict.get?_erase hc.wellFormed]
  · rw [hentries]
    exact Dict.wellFormed_erase hc.wellFormed

theorem orderly_restarts (ho : Orderly t loads epoch completed) (hr : Restarts name t t') :
    Orderly t' loads epoch completed := by
  cases hr with
  | absent => exact ho
  | unused e hentry htask _ =>
    refine ⟨ho.tidy.erase rfl fun _ _ _ _ _ _ => rfl, ?_, ho.counted⟩
    have hsame : ({ t.cache with entries := t.cache.entries.erase name } : Cache σ).taskOf =
        t.cache.taskOf := by
      funext n
      rw [taskOf_of_get? (x := none) fun n => Dict.get?_erase ho.tidy.wellFormed]
      split_ifs with hn
      · rw [hn, taskOf, hentry, Option.bind_some, htask]
        rfl
      · rfl
    rw [hsame]
    exact ho.tickets
  | waits t' e live h e' started hentry _ hwaits =>
    refine ho.waits hwaits ?_ ?_
    · rw [hentry]
      rfl
    · rw [taskOf, hentry]
      rfl

theorem orderly_serving (ho : Orderly t loads epoch completed) (name : String) (value : Value) :
    Orderly (serving t name value) loads epoch completed :=
  ⟨⟨ho.tidy.wellFormed, ho.tidy.shaped, ho.tidy.apart⟩, ho.tickets, ho.counted⟩

theorem orderly_update (ho : Orderly t loads epoch completed) (name : String) (value : Value) :
    Orderly ((update name value).run t).2 loads epoch completed := by
  rcases run_update name value t with ⟨-, hsame⟩ | ⟨-, hrestarts⟩
  · rw [hsame]
    exact ho
  · exact orderly_restarts (orderly_serving ho name value) hrestarts

theorem getElem?_signalled {signals : Array Signal} {pending : Option Nat} {i : Nat}
    (hne : pending ≠ some i) : (signalled signals pending)[i]? = signals[i]? := by
  cases pending with
  | none => rfl
  | some j =>
    rw [signalled, Array.getElem?_modify, if_neg fun h => hne (congrArg some h)]

theorem Tidy.signalled (hc : c.Tidy) (hentry : c.entries.get? name = some e)
    (hsignals : c'.signals = Cache.signalled c.signals e.pending) (m : String) (f : Entry) (i : Nat)
    (hm : m ≠ name) (hf : c.entries.get? m = some f) (hi : f.pending = some i) :
    c'.signals[i]? = c.signals[i]? := by
  rw [hsignals]
  exact getElem?_signalled fun he => hm (hc.apart m name f e i hf hentry hi he)

theorem tickets_finish {before after : List (Load × Nat)} {load : Load} {n : Nat}
    {tasks : String → Option LoadTask}
    (ho : Orderly t (before ++ (load, n) :: after) epoch 0)
    (hentry : t.cache.entries.get? load.name = some e) (htask : e.task = some load.task)
    (htasks : ∀ m, tasks m = if m = load.name then none else t.cache.taskOf m) :
    Tickets tasks (before ++ after ++ t.spawned.map (·, epoch)) epoch t.cache.nextTask := by
  have ht := ho.tickets
  rw [List.append_assoc, List.cons_append] at ht
  rw [List.append_assoc]
  exact ht.finish (x := (load, n)) (by rw [taskOf, hentry, Option.bind_some, htask]) htasks

theorem orderly_completes {before after : List (Load × Nat)} {load : Load} {n : Nat}
    {outcome : Except Failure Value} (ho : Orderly t (before ++ (load, n) :: after) epoch 0)
    (hcompletes : Completes load outcome t t') : Orderly t' (before ++ after) epoch 1 := by
  have hcounted : t.cache.outstanding = (before ++ after).length + t.spawned.length + 1 := by
    rw [ho.counted, List.length_append, List.length_cons, List.length_append]
    omega
  have hgone : ∀ c' : Cache σ, c'.entries = t.cache.entries.erase load.name →
      ∀ m, c'.taskOf m = if m = load.name then none else t.cache.taskOf m := fun c' hc' =>
    taskOf_of_get? (x := none) fun m => by rw [hc', Dict.get?_erase ho.tidy.wellFormed]
  cases hcompletes with
  | orphaned hnot =>
    refine ⟨ho.tidy, ?_, hcounted⟩
    have ht := ho.tickets
    rw [List.append_assoc, List.cons_append] at ht
    rw [List.append_assoc]
    refine ht.discard fun hheld => ?_
    obtain ⟨e, he, htask⟩ := Option.bind_eq_some_iff.mp hheld
    exact hnot e he htask
  | delivered e h o hs hentry htask _ _ _ _ =>
    refine ⟨?_, ?_, hcounted⟩
    · refine ho.tidy.change (x := some (e.loadedAt h)) (fun m => Dict.get?_insert)
        (Dict.wellFormed_insert ho.tidy.wellFormed) (ho.tidy.signalled hentry rfl) ?_ ?_
      · rintro _ ⟨⟩
        exact .inr ⟨rfl, rfl, rfl⟩
      · rintro _ m f i ⟨⟩ _ _ hi
        cases hi
    · have hnone : ∀ m, Cache.taskOf { t.cache with
          entries := t.cache.entries.insert load.name (e.loadedAt h) } m =
          if m = load.name then none else t.cache.taskOf m :=
        taskOf_of_get? (x := some (e.loadedAt h)) fun m => Dict.get?_insert
      have ht := tickets_finish ho hentry htask hnone
      exact ht
  | dropped e h hs hentry htask _ _ _ =>
    have ht := tickets_finish ho hentry htask
      (hgone { t.cache with entries := t.cache.entries.erase load.name } rfl)
    exact ⟨ho.tidy.erase rfl (ho.tidy.signalled hentry rfl), ht, hcounted⟩
  | abandoned e hentry htask _ _ =>
    have ht := tickets_finish ho hentry htask
      (hgone { t.cache with entries := t.cache.entries.erase load.name } rfl)
    exact ⟨ho.tidy.erase rfl (ho.tidy.signalled hentry rfl), ht, hcounted⟩
  | again t' e e' started hentry htask _ _ henters =>
    have hloading : e.state = .loading ∧ ∃ i, e.pending = some i := by
      rcases ho.tidy.shaped _ e hentry with hw | hs
      · exact ⟨hw.state, hw.pending.imp fun _ h => h.1⟩
      · rw [hs.task] at htask
        cases htask
    obtain ⟨hstate, i, hi⟩ := hloading
    refine ⟨ho.tidy.enters henters hstate hi (ho.tidy.pending hentry hi) fun m f hm hf hfi =>
      hm (ho.tidy.apart m load.name f e i hf hentry hfi hi), ?_, ?_⟩
    · have ht := tickets_enters (tickets_finish ho hentry htask fun _ => rfl) (fun _ => rfl) henters
      rwa [List.append_assoc, ← List.map_append, ← henters.spawned] at ht
    · rw [henters.outstanding, henters.spawned, hcounted]
      simp only [List.length_append]
      omega

/-- A load that its entry does not hold completes without effect. -/
theorem run_completeLoad_of_not_holds {load : Load} (hnot : ¬ t.cache.Holds load)
    (outcome : Except Failure Value) : (completeLoad load outcome).run t = ((), t) := by
  suffices h : ∀ t', Completes load outcome t t' → t' = t from
    Prod.ext rfl (h _ (run_completeLoad load outcome t))
  have hother : ∀ e, t.cache.entries.get? load.name = some e → e.task ≠ some load.task :=
    fun e he htask => hnot (by rw [Holds, taskOf, he, Option.bind_some, htask])
  intro t' hcompletes
  cases hcompletes with
  | orphaned => rfl
  | delivered e h o hs hentry htask => exact absurd htask (hother e hentry)
  | dropped e h hs hentry htask => exact absurd htask (hother e hentry)
  | abandoned e hentry htask => exact absurd htask (hother e hentry)
  | again t' e e' started hentry htask => exact absurd htask (hother e hentry)

theorem orderly_clear (ho : Orderly t loads epoch completed) (hspawned : t.spawned = []) :
    Orderly (clear.run t).2 loads (epoch + 1) completed := by
  obtain ⟨hs, signals, -, hrun⟩ := run_clear t
  have ht := ho.tickets.clear
  have hcounted := ho.counted
  rw [hspawned, List.map_nil, List.append_nil] at ht
  rw [hrun]
  refine ⟨tidy_of_empty rfl, ?_, hcounted⟩
  rw [taskOf_of_empty rfl, hspawned, List.map_nil, List.append_nil]
  exact ht

theorem orderly_endLoad (ho : Orderly t loads epoch 1) :
    Orderly (endLoad.run t).2 loads epoch 0 :=
  ⟨⟨ho.tidy.wellFormed, ho.tidy.shaped, ho.tidy.apart⟩, ho.tickets,
    Nat.sub_eq_of_eq_add ho.counted⟩

end Cache

namespace System

variable {σ : Type} {s s' : System σ} {t : Turn σ}

/-- The loads in flight, with their epochs. -/
def tickets (s : System σ) : List (Load × Nat) := s.flights.map fun f => (f.load, f.epoch)

/-- Entries match the loads in flight. -/
def Orderly (s : System σ) : Prop := Cache.Orderly s.turn s.tickets s.epoch 0

theorem orderly_start (id : Nat) (registry : Registry σ) : (start id registry).Orderly where
  tidy := Cache.tidy_of_empty rfl
  tickets := by
    have hnone : (start id registry).turn.cache.taskOf = fun _ => none := Cache.taskOf_of_empty rfl
    rw [hnone]
    exact Tickets.start 0 _
  counted := rfl

theorem orderly_after {loads : List (Load × Nat)} (hloads : s.tickets = loads)
    (ho : Cache.Orderly t loads s.epoch 0) : (s.after t).Orderly := by
  refine ho.of_eq rfl ?_
  rw [tickets, after, List.map_append, List.map_map, ← hloads, tickets]
  exact List.append_nil _

theorem tickets_goOn {before after : List (Flight σ)} {f : Flight σ}
    (hf : s.flights = before ++ f :: after) (rest : Conversion σ Value) :
    (s.goOn before after (f.working rest)).tickets = s.tickets := by
  rw [tickets, tickets, hf, goOn, List.map_append, List.map_append]
  rfl

theorem orderly_goOn (ho : s.Orderly) {before after : List (Flight σ)} {f : Flight σ}
    (hf : s.flights = before ++ f :: after) (rest : Conversion σ Value) :
    (s.goOn before after (f.working rest)).Orderly := by
  rw [Orderly, tickets_goOn hf]
  exact ho

theorem orderly_ask (ho : s.Orderly) (name : String) : (s.ask name).Orderly :=
  orderly_after rfl (Cache.orderly_gives ho (Cache.run_getResource name s.turn))

theorem orderly_complete (ho : s.Orderly) {before after : List (Flight σ)} {f : Flight σ}
    (hf : s.flights = before ++ f :: after) (outcome : Except Failure Value) :
    (act { s with flights := before ++ after }
      (Cache.completeLoad f.load outcome >>= fun _ => Cache.endLoad)).Orderly := by
  have hloads : s.tickets = before.map (fun f => (f.load, f.epoch)) ++
      (f.load, f.epoch) :: after.map fun f => (f.load, f.epoch) := by
    rw [tickets, hf, List.map_append, List.map_cons]
  rw [Orderly, hloads] at ho
  have hcompleted := Cache.orderly_completes ho (Cache.run_completeLoad f.load outcome s.turn)
  refine orderly_after (List.map_append ..) (Cache.orderly_endLoad hcompleted)

variable [ObjectClass σ]

theorem orderly_keep (ho : s.Orderly) (item : σ) : (s.keep item).Orderly :=
  orderly_after rfl ⟨ho.tidy, ho.tickets, ho.counted⟩

theorem orderly_step (ho : s.Orderly) (hstep : Step s s') : s'.Orderly := by
  cases hstep with
  | getResource name => exact orderly_ask ho name
  | invalidate name =>
    exact orderly_after rfl (Cache.orderly_restarts ho (Cache.run_invalidate name s.turn))
  | setResources d =>
    exact orderly_after rfl
      (Cache.setResources_induction (P := fun t => Cache.Orderly t s.tickets s.epoch 0)
        (fun _ n v hu => Cache.orderly_update hu n v) d ho)
  | clear => exact orderly_after rfl (Cache.orderly_clear ho rfl)
  | drainEvents =>
    exact ⟨⟨ho.tidy.wellFormed, ho.tidy.shaped, ho.tidy.apart⟩, ho.tickets, ho.counted⟩
  | newHandle name value => exact ⟨ho.tidy, ho.tickets, ho.counted⟩
  | hold g _ => exact ⟨ho.tidy, ho.tickets, ho.counted⟩
  | drop link => exact ⟨ho.tidy, ho.tickets, ho.counted⟩
  | free store _ => exact ⟨ho.tidy, ho.tickets, ho.counted⟩
  | read before after f hf _ => exact orderly_goOn ho hf _
  | request before after f name next hf _ => exact orderly_ask (orderly_goOn ho hf _) name
  | make before after f item next hf _ => exact orderly_keep (orderly_goOn ho hf _) item
  | complete before after f rest outcome hf _ _ => exact orderly_complete ho hf outcome

theorem Reachable.orderly (hs : Reachable s) : s.Orderly :=
  hs.invariant orderly_start fun _ _ => orderly_step

/-- What entries and loads in flight have to do with each other. -/
structure EntriesFollowLoads (s : System σ) : Prop where
  /-- An entry either waits for its load on a signal that is not set, or has its value. -/
  shaped : ∀ n e, s.cache.entries.get? n = some e → Xor (e.Waiting s.cache.signals) e.Settled
  /-- The task of an entry is that of one load in flight. -/
  held : ∀ n e task, s.cache.entries.get? n = some e → e.task = some task →
    (s.flights.map (·.load)).count ⟨n, task⟩ = 1
  /-- At most one of the loads for a name is not orphaned. -/
  single : ∀ n, (s.flights.map (·.load)).countP
    (fun load => load.name = n ∧ s.cache.Holds load) ≤ 1
  /-- The orphaned loads are those that started before the cache was last cleared. -/
  orphaned : ∀ f ∈ s.flights, ¬ s.cache.Holds f.load ↔ f.epoch < s.epoch
  /-- An orphaned load completes without effect. -/
  ineffective : ∀ f ∈ s.flights, ¬ s.cache.Holds f.load →
    ∀ outcome, (Cache.completeLoad f.load outcome).run s.turn = ((), s.turn)
  counted : s.cache.outstanding = s.flights.length
  idle : s.cache.isLoading = false → ∀ n e, s.cache.entries.get? n = some e → e.state ≠ .loading

theorem Reachable.ticketed (hs : Reachable s) :
    Tickets s.cache.taskOf s.tickets s.epoch s.cache.nextTask :=
  (List.append_nil s.tickets) ▸ hs.orderly.tickets

/-- **In every state, entries and loads in flight match.** -/
theorem Reachable.entries_follow_loads (hs : Reachable s) : s.EntriesFollowLoads := by
  have ho := hs.orderly
  have ht := hs.ticketed
  have hloads : s.flights.map (·.load) = s.tickets.map Prod.fst := by
    rw [tickets, List.map_map]
    rfl
  have hcounted : s.cache.outstanding = s.flights.length := by
    have hlength : s.tickets.length = s.flights.length := List.length_map _
    rw [← hlength]
    exact ho.counted
  constructor
  case shaped =>
    intro n e he
    rcases ho.tidy.shaped n e he with hw | hs
    · exact .inl ⟨hw, hw.not_settled⟩
    · exact .inr ⟨hs, fun hw => hw.not_settled hs⟩
  case held =>
    intro n e task he htask
    rw [hloads]
    exact ht.count_eq_one (by rw [Cache.taskOf, he, Option.bind_some, htask])
  case single =>
    intro n
    rw [hloads]
    exact ht.countP_le_one n
  case orphaned =>
    intro f hf
    exact (ht.lt_epoch_iff (List.mem_map_of_mem (f := fun f => (f.load, f.epoch)) hf)).symm
  case ineffective =>
    intro f _ hnot outcome
    exact Cache.run_completeLoad_of_not_holds hnot outcome
  case counted => exact hcounted
  case idle =>
    intro hidle n e he hloading
    have hnone : s.flights = [] := by
      rw [Cache.isLoading, decide_eq_false_iff_not, hcounted] at hidle
      exact List.eq_nil_of_length_eq_zero (Nat.eq_zero_of_not_pos hidle)
    rcases ho.tidy.shaped n e he with hw | hs
    · obtain ⟨task, htask⟩ := hw.task
      have hheld : s.cache.taskOf n = some task := by
        rw [Cache.taskOf, he, Option.bind_some, htask]
      have hone := ht.count_eq_one hheld
      rw [← hloads, hnone] at hone
      cases hone
    · rw [hs.state] at hloading
      cases hloading

/-- A cache that was asked for a name, cleared, and asked again. -/
def askedTwice : System Item := ((start 0 .empty).take "a").cleared.take "a"

theorem reachable_askedTwice : Reachable askedTwice :=
  (((Reachable.start 0 .empty).step (.getResource "a")).step .clear).step (.getResource "a")

/-- Two loads for one name are in flight, of which the first is orphaned. -/
theorem entries_follow_loads_askedTwice :
    askedTwice.tickets = [(⟨"a", ⟨1, 0⟩⟩, 0), (⟨"a", ⟨2, 0⟩⟩, 1)] ∧ Reachable askedTwice ∧
      askedTwice.EntriesFollowLoads :=
  ⟨rfl, reachable_askedTwice, reachable_askedTwice.entries_follow_loads⟩

end System

end ResourceTree
