import Mathlib.Algebra.BigOperators.Group.List.Basic
import Mathlib.Data.List.Induction
import ResourceTree.Proofs.Walk.Congruence

/-!
# Judgements — what is said of a walk from what is said of its visits

A judgement says something of the outcome of an action, and counts what the action adds, where the
order of what is added makes no difference. The outcome of a walk over members is put together from
the outcomes of the visits, in key order, whether one worker visits the members or tasks do, in any
order.

* `Place.collect`, **`entries_collect`**, `get?_collect`: a dictionary put together from results;
* `Action.Always`: what an action gives whenever it gives something;
* **`Judgement`**: something that may be said of actions, with a rule for each way to build them;
* `says_runSequential`, `says_runFannedOut`, **`says_runMembers`**, `says_runElements`: walks;
* `Rewrite.Descends`, **`says_visitUsing`**, `says_run`: rewrites that go through a whole tree.
-/

namespace ResourceTree

open ResourceTree.Action

/-! ## Dictionaries of results -/

namespace Place

/-- A member with the result of its visit. -/
abbrev Visited := (String × Value) × Option Value

/-- Sets the results of members in turn. -/
def collect (out : Dict Value) (visited : List Visited) : Dict Value :=
  visited.foldl (fun out member => setResult out member.1.1 member.2) out

/-- The members that were not dropped, with their results. -/
def kept (visited : List Visited) : List (String × Value) :=
  visited.filterMap fun member => member.2.map (member.1.1, ·)

variable {visited : List Visited} {out : Dict Value}

theorem collect_append (more : List Visited) :
    collect out (visited ++ more) = collect (collect out visited) more := List.foldl_append

theorem collect_eq : collect out visited = out.extend (kept visited) := by
  induction visited generalizing out with
  | nil => rfl
  | cons member rest ih =>
    obtain ⟨entry, result⟩ := member
    show collect (setResult out entry.1 result) rest = _
    rw [ih]
    cases result <;> rfl

theorem names_kept_sublist :
    (Dict.names (kept visited)).Sublist (Dict.names (visited.map Prod.fst)) := by
  induction visited with
  | nil => exact List.Sublist.refl _
  | cons member rest ih =>
    obtain ⟨entry, result⟩ := member
    cases result with
    | none => exact ih.cons entry.1
    | some v => exact ih.cons_cons entry.1

/-- The members that are present: not dropped, and not null. -/
def present (visited : List Visited) : List (String × Value) :=
  (kept visited).filter fun entry => !entry.2.isNull

theorem pairwise_present (h : (Dict.names (visited.map Prod.fst)).Pairwise (· < ·)) :
    (Dict.names (present visited)).Pairwise (· < ·) :=
  (h.sublist names_kept_sublist).sublist (List.filter_sublist.map Prod.fst)

theorem ne_null_of_mem_present : ∀ entry ∈ present visited, entry.2 ≠ .null := fun entry he => by
  rw [← Dict.isNull_eq_false_iff]
  simpa using (List.mem_filter.mp he).2

/-- A dictionary of results is the dictionary of those that are present. -/
theorem collect_eq_ofValues (h : (Dict.names (visited.map Prod.fst)).Pairwise (· < ·)) :
    collect ∅ visited = Dict.ofValues (present visited) := by
  have hnodup : (Dict.names (kept visited ++ (∅ : Dict Value).entries)).Nodup := by
    rw [Dict.entries_empty, List.append_nil]
    exact (h.sublist names_kept_sublist).imp fun hlt => ne_of_lt hlt
  rw [collect_eq, ← Dict.extend_filter_null Dict.wellFormed_empty hnodup]
  rfl

/-- **The entries of a dictionary of results**: those that are present, in key order. -/
theorem entries_collect (h : (Dict.names (visited.map Prod.fst)).Pairwise (· < ·)) :
    (collect ∅ visited).entries = (kept visited).filter fun entry => !entry.2.isNull := by
  rw [collect_eq_ofValues h]
  exact Dict.entries_ofValues (pairwise_present h) ne_null_of_mem_present

theorem wellFormed_collect : (collect ∅ visited).WellFormed := by
  rw [collect_eq]
  exact Dict.wellFormed_ofValues

theorem nullFree_collect : (collect ∅ visited).NullFree := by
  rw [collect_eq]
  exact Dict.nullFree_ofValues

/-- **What a dictionary of results gives a member**: its result, unless that is null. -/
theorem get?_collect (h : (Dict.names (visited.map Prod.fst)).Pairwise (· < ·)) {member : Visited}
    (hmember : member ∈ visited) :
    (collect ∅ visited).get? member.1.1 = member.2.filter fun v => !v.isNull := by
  have hnames : (visited.map fun other => other.1.1).Nodup := by
    rw [Dict.names, List.map_map] at h
    exact h.imp fun hlt => ne_of_lt hlt
  refine Option.ext fun v => ?_
  rw [Dict.get?_eq_some_iff wellFormed_collect, entries_collect h, List.mem_filter, kept,
    List.mem_filterMap, Option.filter_eq_some_iff]
  refine and_congr_left fun _ => ⟨?_, fun hv => ⟨member, hmember, by rw [hv]; rfl⟩⟩
  rintro ⟨other, hother, heq⟩
  obtain ⟨w, hw, heq⟩ := Option.map_eq_some_iff.mp heq
  obtain ⟨hname, rfl⟩ := Prod.mk.inj heq
  rw [← List.inj_on_of_nodup_map hnames hother hmember hname]
  exact hw

theorem size_collect (h : (Dict.names (visited.map Prod.fst)).Pairwise (· < ·))
    (hresults : ∀ member ∈ visited, ∃ v, member.2 = some v ∧ v ≠ .null) :
    (collect ∅ visited).size = visited.length := by
  have hkept : ∀ entry ∈ kept visited, (!entry.2.isNull) = true := by
    intro entry hentry
    obtain ⟨member, hmember, heq⟩ := List.mem_filterMap.mp hentry
    obtain ⟨v, hv, hne⟩ := hresults member hmember
    rw [hv] at heq
    obtain rfl := Option.some.inj heq
    rw [Bool.not_eq_true', Dict.isNull_eq_false_iff]
    exact hne
  rw [Dict.size, entries_collect h, List.filter_eq_self.mpr hkept, kept,
    List.length_filterMap_eq_countP, List.countP_eq_length]
  intro member hmember
  obtain ⟨v, hv, -⟩ := hresults member hmember
  rw [hv]
  rfl

theorem mem_of_mem_collect {entry : String × Value} (h : entry ∈ (collect ∅ visited).entries) :
    ∃ member ∈ visited, member.1.1 = entry.1 ∧ member.2 = some entry.2 := by
  rw [collect_eq] at h
  obtain ⟨member, hmember, heq⟩ := List.mem_filterMap.mp (Dict.subperm_ofValues.subset h)
  obtain ⟨v, hv, rfl⟩ := Option.map_eq_some_iff.mp heq
  exact ⟨member, hmember, rfl, hv⟩

/-- The outcome of a walk over members: a dictionary of results as `post` says. -/
def Collects (post : String × Value → Option Value → Prop) (start : Dict Value)
    (entries : List (String × Value)) (out : Dict Value) : Prop :=
  ∃ visited : List Visited, visited.map Prod.fst = entries ∧
    (∀ member ∈ visited, post member.1 member.2) ∧ out = collect start visited

theorem Collects.clean {post : String × Value → Option Value → Prop}
    {entries : List (String × Value)} (h : Collects post ∅ entries out) :
    out.WellFormed ∧ out.NullFree := by
  obtain ⟨visited, -, -, rfl⟩ := h
  exact ⟨wellFormed_collect, nullFree_collect⟩

/-- The outcome of a walk over elements: the results as `post` says, but for what was dropped. -/
def Lists (post : Value × Nat → Option Value → Prop) (elements : List (Value × Nat))
    (out : List Value) : Prop :=
  ∃ visited : List ((Value × Nat) × Option Value), visited.map Prod.fst = elements ∧
    (∀ element ∈ visited, post element.1 element.2) ∧ out = visited.filterMap Prod.snd

end Place

/-! ## Judgements -/

namespace Action

variable {σ α β : Type} {setting : Setting σ} {post : α → Prop} {action : Action σ α}

/-- What holds of the outcome whenever the action does not break off. -/
def Always (setting : Setting σ) (post : α → Prop) (action : Action σ α) : Prop :=
  ∀ p a q, action.run setting p = (.ok a, q) → post a

theorem always_true : Always setting (fun _ => True) action := fun _ _ _ _ => trivial

theorem always_pure {a : α} (h : post a) : Always setting post (pure a) := by
  intro p b q hrun
  cases hrun
  exact h

theorem Always.bind {f : α → Action σ β} {post' : β → Prop} (h : Always setting post action)
    (hf : ∀ a, post a → Always setting post' (f a)) : Always setting post' (action >>= f) := by
  intro p b r hrun
  obtain ⟨a, q, haction, hrest⟩ := run_bind_ok.mp hrun
  exact hf a (h p a q haction) q b r hrest

theorem always_length_mapM (xs : List α) (f : α → Action σ β) :
    Always setting (fun ys => ys.length = xs.length) (xs.mapM f) := by
  induction xs with
  | nil => exact always_pure rfl
  | cons x xs ih =>
    rw [List.mapM_cons]
    refine always_true.bind fun y _ => ih.bind fun ys hys => always_pure ?_
    rw [List.length_cons, List.length_cons, hys]

end Action

/-- **Something that may be said of actions**: `Says setting post action m` says of the outcome
that it is as `post` says, and counts `m`. What follows an action may rely on what the action always
gives; on what is said of it, only to say something itself. -/
structure Judgement (σ M : Type) [AddCommMonoid M] where
  Says : {α : Type} → Setting σ → (α → Prop) → Action σ α → M → Prop
  says_pure : ∀ {α : Type} {setting : Setting σ} {post : α → Prop} {a : α}, post a →
    Says setting post (pure a) 0
  says_bind_always : ∀ {α β : Type} {setting : Setting σ} {always post : α → Prop}
    {post' : β → Prop} {action : Action σ α} {f : α → Action σ β} {m n : M},
    Always setting always action →
    Says setting post action m →
    (∀ a, always a → Says setting (fun b => post a → post' b) (f a) n) →
    Says setting post' (action >>= f) (m + n)
  says_read_bind : ∀ {α : Type} {setting : Setting σ} {post : α → Prop} {f : Setting σ → Action σ α}
    {m : M}, Says setting post (f setting) m → Says setting post (read >>= f) m
  says_nextWorker : ∀ {setting : Setting σ}, Says setting (fun _ => True) Action.nextWorker 0
  says_branch : ∀ {setting : Setting σ} {post : Option Value → Prop} {place : Place} {worker : Nat}
    {branch : Branch σ} {m : M},
    Says setting post (branch.2 ((place.member branch.1).withWorker worker)) m →
    Says setting post (place.runBranch worker branch) m

namespace Judgement

variable {σ M α β : Type} [AddCommMonoid M] (J : Judgement σ M) {setting : Setting σ}
  {post : α → Prop} {post' : β → Prop} {action : Action σ α} {f : α → Action σ β} {m n : M}

theorem says_bind (h : J.Says setting post action m)
    (hf : ∀ a, J.Says setting (fun b => post a → post' b) (f a) n) :
    J.Says setting post' (action >>= f) (m + n) := J.says_bind_always always_true h fun a _ => hf a

theorem says_bind_pure (h : J.Says setting post action m) {g : α → β}
    (hg : ∀ a, post a → post' (g a)) :
    J.Says setting post' (action >>= fun a => pure (g a)) m :=
  add_zero m ▸ J.says_bind h fun a => J.says_pure (hg a)

theorem says_mono {other : α → Prop} (h : J.Says setting post action m)
    (himp : ∀ a, post a → other a) : J.Says setting other action m :=
  bind_pure action ▸ J.says_bind_pure h himp

theorem says_bind_zero (h : J.Says setting post action 0)
    (hf : ∀ a, J.Says setting (fun b => post a → post' b) (f a) 0) :
    J.Says setting post' (action >>= f) 0 := add_zero (0 : M) ▸ J.says_bind h hf

theorem sum_map_zero {ι : Type} (xs : List ι) : (xs.map fun _ => (0 : M)).sum = 0 := by
  rw [List.map_const', List.sum_replicate, nsmul_zero]

theorem says_mapM {xs : List α} {f : α → Action σ β} (post : α → β → Prop) (count : α → M)
    (h : ∀ x ∈ xs, J.Says setting (post x) (f x) (count x)) :
    J.Says setting (fun ys => ∃ pairs : List (α × β), pairs.map Prod.fst = xs ∧
      (∀ pair ∈ pairs, post pair.1 pair.2) ∧ ys = pairs.map Prod.snd)
      (xs.mapM f) (xs.map count).sum := by
  induction xs with
  | nil => exact J.says_pure ⟨[], rfl, nofun, rfl⟩
  | cons x xs ih =>
    obtain ⟨hx, hxs⟩ := List.forall_mem_cons.mp h
    rw [List.mapM_cons, List.map_cons, List.sum_cons]
    refine J.says_bind hx fun y => J.says_bind_pure (ih hxs) ?_
    rintro _ ⟨pairs, rfl, hpairs, rfl⟩ hy
    exact ⟨(x, y) :: pairs, rfl, List.forall_mem_cons.mpr ⟨hy, hpairs⟩, rfl⟩

/-! ## Members -/

section Members

variable {visit : Value → Visit σ} {place : Place} {entries : List (String × Value)}
  {post : String × Value → Option Value → Prop} {count : String × Value → M}

open Place (Collects Lists picks mem_picks_iff)

/-- A dictionary that is put together from parts, each of which sets the results of some members. -/
theorem says_parts {ι : Type} {parts : List ι} {members : ι → List (String × Value)}
    {f : Dict Value → ι → Action σ (Dict Value)}
    (h : ∀ out, ∀ part ∈ parts, J.Says setting (Collects post out (members part)) (f out part)
      ((members part).map count).sum) (start : Dict Value) :
    J.Says setting (Collects post start (parts.flatMap members)) (parts.foldlM f start)
      ((parts.flatMap members).map count).sum := by
  induction parts generalizing start with
  | nil => exact J.says_pure ⟨[], rfl, nofun, rfl⟩
  | cons part parts ih =>
    obtain ⟨hpart, hparts⟩ : (∀ out, J.Says setting (Collects post out (members part))
        (f out part) ((members part).map count).sum) ∧ _ :=
      ⟨fun out => h out part List.mem_cons_self,
        fun out x hx => h out x (List.mem_cons_of_mem _ hx)⟩
    rw [List.foldlM_cons, List.flatMap_cons, List.map_append, List.sum_append]
    refine J.says_bind (hpart start) fun out =>
      J.says_mono (ih hparts out) fun out' hout' hout => ?_
    obtain ⟨visited, hnames, hresults, rfl⟩ := hout
    obtain ⟨visited', hnames', hresults', rfl⟩ := hout'
    refine ⟨visited ++ visited', by rw [List.map_append, hnames, hnames'], fun member hmember => ?_,
      (Place.collect_append visited').symm⟩
    exact (List.mem_append.mp hmember).elim (hresults member) (hresults' member)

theorem says_runSequential
    (h : ∀ entry ∈ entries,
      J.Says setting (post entry) (visit entry.2 (place.member entry.1)) (count entry)) :
    J.Says setting (Collects post ∅ entries)
      (place.runSequential (entries.map (Prod.map id visit))) (entries.map count).sum := by
  unfold Place.runSequential
  rw [List.foldlM_map]
  have hparts : J.Says setting (Collects post ∅ (entries.flatMap fun entry => [entry]))
      (entries.foldlM (fun out entry => do
        return Place.setResult out entry.1 (← visit entry.2 (place.member entry.1))) ∅)
      ((entries.flatMap fun entry => [entry]).map count).sum := by
    refine J.says_parts (fun out entry hentry => ?_) ∅
    rw [List.map_singleton, List.sum_singleton]
    exact J.says_bind_pure (h entry hentry) fun result hresult =>
      ⟨[(entry, result)], rfl, List.forall_mem_singleton.mpr hresult, rfl⟩
  rwa [List.flatMap_singleton'] at hparts

/-! ### Tasks -/

theorem filterMap_getElem?_range {α : Type} (xs : List α) :
    (List.range xs.length).filterMap (xs[·]?) = xs := by
  induction xs using List.reverseRecOn with
  | nil => rfl
  | append_singleton xs x ih =>
    have hinit : (List.range xs.length).filterMap ((xs ++ [x])[·]?) = xs := by
      conv_rhs => rw [← ih]
      refine List.filterMap_congr fun i hi => ?_
      exact List.getElem?_append_left (List.mem_range.mp hi)
    rw [List.length_append, List.length_singleton, List.range_succ, List.filterMap_append, hinit]
    simp

theorem exists_lookup {α : Type} {results : List (Nat × α)} {found : Nat × α}
    (h : found ∈ results) :
    ∃ result, results.lookup found.1 = some result ∧ (found.1, result) ∈ results := by
  cases hlookup : results.lookup found.1 with
  | none => simpa using List.lookup_eq_none_iff.mp hlookup found h
  | some result =>
    obtain ⟨before, after, rfl, -⟩ := List.lookup_eq_some_iff.mp hlookup
    exact ⟨result, rfl, List.mem_append_right _ List.mem_cons_self⟩

theorem picks_perm {α : Type} {order : List Nat} {tasks : List α}
    (h : order.Perm (List.range tasks.length)) : ((picks order tasks).map Prod.snd).Perm tasks := by
  have hrange : (picks (List.range tasks.length) tasks).map Prod.snd = tasks := by
    conv_rhs => rw [← filterMap_getElem?_range tasks]
    rw [picks, List.map_filterMap]
    refine List.filterMap_congr fun i _ => ?_
    cases tasks[i]? <;> rfl
  have hperm : (picks order tasks).Perm (picks (List.range tasks.length) tasks) := h.filterMap _
  exact (hperm.map Prod.snd).trans (List.Perm.of_eq hrange)

/-- **A batch of tasks** adds what its members add, and leaves a result for each of them. -/
theorem says_runBatch {order workers : List Nat} (hworkers : workers.length = entries.length)
    (horder : order.Perm (List.range workers.length))
    (h : ∀ entry ∈ entries, ∀ worker, J.Says setting (post entry)
      (place.runBranch worker (entry.1, visit entry.2)) (count entry)) :
    J.Says setting (fun results => ∀ i entry, entries[i]? = some entry →
        ∃ result, results.lookup i = some result ∧ post entry result)
      (place.runBatch order (workers.zip (entries.map (Prod.map id visit))))
      (entries.map count).sum := by
  have htasks : (workers.zip entries).length = workers.length := by
    rw [List.length_zip, hworkers, min_self]
  have hsnd : (workers.zip entries).map Prod.snd = entries := List.map_snd_zip hworkers.ge
  have hperm := picks_perm (htasks.symm ▸ horder)
  have hsum : ((picks order (workers.zip entries)).map fun pick => count pick.2.2).sum =
      (entries.map count).sum := by
    have hcount := (hperm.map fun task : Nat × (String × Value) => count task.2).sum_eq
    rw [List.map_map] at hcount
    conv_rhs => rw [← hsnd, List.map_map]
    exact hcount
  rw [Place.runBatch_eq, ← hsum]
  refine J.says_mono (J.says_mapM
    (fun pick result => result.1 = pick.1 ∧ post pick.2.2 result.2) _ fun pick hpick => ?_) ?_
  · have hmem : pick.2.2 ∈ entries := by
      have hpick := List.mem_of_getElem? (mem_picks_iff.mp hpick).2
      exact hsnd ▸ List.mem_map_of_mem hpick
    exact J.says_bind_pure (h pick.2.2 hmem pick.2.1) fun result hresult => ⟨rfl, hresult⟩
  · rintro _ ⟨pairs, hpicks, hpairs, rfl⟩ i entry hentry
    have hi : i < entries.length := (List.getElem?_eq_some_iff.mp hentry).1
    have htask : (workers.zip entries)[i]?.map Prod.snd = some entry := by
      rw [← List.getElem?_map, hsnd, hentry]
    -- the task is run, and what was found under its number is the result of that run
    obtain ⟨pair, hpair, hnumber⟩ : ∃ pair ∈ pairs, pair.1.1 = i := by
      obtain ⟨task, htask, -⟩ := Option.map_eq_some_iff.mp htask
      have hpick : (i, task) ∈ picks order (workers.zip entries) :=
        mem_picks_iff.mpr ⟨horder.mem_iff.mpr (by simpa [hworkers] using hi), htask⟩
      rw [← hpicks] at hpick
      obtain ⟨pair, hpair, heq⟩ := List.mem_map.mp hpick
      exact ⟨pair, hpair, by rw [heq]⟩
    obtain ⟨result, hlookup, hresult⟩ := exists_lookup (List.mem_map_of_mem (f := Prod.snd) hpair)
    rw [(hpairs pair hpair).1, hnumber] at hlookup hresult
    obtain ⟨found, hfound, heq⟩ := List.mem_map.mp hresult
    obtain ⟨hsame, hpost⟩ := hpairs found hfound
    have hpick := List.mem_map_of_mem (f := Prod.fst) hfound
    rw [hpicks] at hpick
    have hpick := (mem_picks_iff.mp hpick).2
    rw [← hsame, heq] at hpick
    rw [hpick] at htask
    obtain rfl := Option.some.inj htask
    exact ⟨result, hlookup, by rwa [heq] at hpost⟩

theorem says_workers (batch : List (String × Value)) :
    J.Says setting (fun _ => True) (batch.mapM fun _ => Action.nextWorker) 0 := by
  rw [← sum_map_zero batch]
  exact J.says_mono (J.says_mapM (fun _ _ => True) _ fun _ _ => J.says_nextWorker)
    fun _ _ => trivial

/-- **Members visited by tasks**, from what is said of the branches. -/
theorem says_runFannedOut (fan : FanOut) (count : String × Value → M)
    (h : ∀ entry ∈ entries, ∀ worker, J.Says setting (post entry)
      (place.runBranch worker (entry.1, visit entry.2)) (count entry)) :
    J.Says setting (Collects post ∅ entries)
      (place.runFannedOut fan (entries.map (Prod.map id visit))) (entries.map count).sum := by
  unfold Place.runFannedOut
  rw [List.length_map, Place.batches_map, List.foldlM_map]
  have hflat : (Place.batches (max fan.batch 1) entries.length entries).flatten = entries :=
    Place.flatten_batches (lt_max_of_lt_right Nat.one_pos) (Nat.le_refl _)
  conv in Collects post ∅ entries => rw [← hflat, ← List.flatMap_id]
  conv in (entries.map count).sum => rw [← hflat, ← List.flatMap_id]
  refine J.says_parts (fun out batch hbatch => ?_) ∅
  have h : ∀ entry ∈ batch, ∀ worker, J.Says setting (post entry)
      (place.runBranch worker (entry.1, visit entry.2)) (count entry) :=
    fun entry hentry => h entry (Place.mem_of_mem_batches hbatch hentry)
  rw [List.mapM_map, ← zero_add ((id batch).map count).sum]
  refine J.says_bind_always (always_length_mapM batch _) (J.says_workers batch)
    fun workers hworkers => ?_
  refine J.says_bind_pure (J.says_runBatch hworkers (fan.complete workers) h)
    fun results hresults _ => ?_
  refine ⟨batch.zipIdx.map fun member => (member.1, (results.lookup member.2).join), ?_, ?_, ?_⟩
  · rw [List.map_map]
    exact List.zipIdx_map_fst 0 batch
  · intro member hmember
    obtain ⟨⟨entry, i⟩, hentry, rfl⟩ := List.mem_map.mp hmember
    obtain ⟨result, hlookup, hresult⟩ := hresults i entry (List.mem_zipIdx_iff_getElem?.mp hentry)
    rwa [hlookup]
  · rw [List.zipIdx_map, List.foldl_map, Place.collect, List.foldl_map]
    refine List.foldl_ext _ _ _ fun acc member hmember => ?_
    obtain ⟨entry, i⟩ := member
    obtain ⟨result, hlookup, -⟩ := hresults i entry (List.mem_zipIdx_iff_getElem?.mp hmember)
    dsimp only [Prod.map, id]
    rw [hlookup]
    rfl

/-- **The members of a dictionary**, visited by one worker or as tasks, in any order. -/
theorem says_runMembers {rw : Rewrite σ} (count : String × Value → M)
    (h : ∀ entry ∈ entries, ∀ worker, J.Says setting (post entry)
      (visit entry.2 ((place.member entry.1).withWorker worker)) (count entry)) :
    J.Says setting (Collects post ∅ (Dict.inKeyOrder entries))
      (rw.runMembers place (entries.map (Prod.map id visit)))
      ((Dict.inKeyOrder entries).map count).sum := by
  have h : ∀ entry ∈ Dict.inKeyOrder entries, ∀ worker, J.Says setting (post entry)
      (visit entry.2 ((place.member entry.1).withWorker worker)) (count entry) :=
    fun entry hentry => h entry (Dict.inKeyOrder_subset hentry)
  have hsequential := J.says_runSequential fun entry hentry => h entry hentry place.worker
  unfold Rewrite.runMembers
  dsimp only
  rw [Dict.inKeyOrder_map]
  refine J.says_read_bind ?_
  cases setting.fanOut with
  | none => exact hsequential
  | some fan =>
    dsimp only
    split_ifs
    · exact J.says_runFannedOut fan count fun entry hentry worker =>
        J.says_branch (h entry hentry worker)
    · exact hsequential

/-- **The elements of a list**, visited one after another. -/
theorem says_runElements {items : List Value} {post : Value × Nat → Option Value → Prop}
    (count : Value × Nat → M) (index : Nat)
    (h : ∀ element : Value × Nat, element.1 ∈ items →
      J.Says setting (post element) (visit element.1 (place.element element.2)) (count element)) :
    J.Says setting (Lists post (items.zipIdx index)) (place.runElements index (items.map visit))
      ((items.zipIdx index).map count).sum := by
  induction items generalizing index with
  | nil => exact J.says_pure ⟨[], rfl, nofun, rfl⟩
  | cons item rest ih =>
    have hrest := fun element hmem => h element (List.mem_cons_of_mem item hmem)
    rw [List.zipIdx_cons, List.map_cons (f := count), List.sum_cons]
    refine J.says_bind (h (item, index) List.mem_cons_self) fun result =>
      J.says_bind_pure (ih (index + 1) hrest) ?_
    rintro _ ⟨visited, hvisited, hresults, rfl⟩ hresult
    refine ⟨((item, index), result) :: visited, by rw [List.map_cons, hvisited],
      List.forall_mem_cons.mpr ⟨hresult, hresults⟩, ?_⟩
    cases result <;> rfl

/-! ### Visits that add nothing -/

theorem says_runMembers_zero {rw : Rewrite σ}
    (h : ∀ entry ∈ entries, ∀ worker, J.Says setting (post entry)
      (visit entry.2 ((place.member entry.1).withWorker worker)) 0) :
    J.Says setting (Collects post ∅ (Dict.inKeyOrder entries))
      (rw.runMembers place (entries.map (Prod.map id visit))) 0 :=
  sum_map_zero (M := M) (Dict.inKeyOrder entries) ▸ J.says_runMembers (fun _ => 0) h

theorem says_runElements_zero {items : List Value} {post : Value × Nat → Option Value → Prop}
    (index : Nat)
    (h : ∀ element : Value × Nat, element.1 ∈ items →
      J.Says setting (post element) (visit element.1 (place.element element.2)) 0) :
    J.Says setting (Lists post (items.zipIdx index))
      (place.runElements index (items.map visit)) 0 :=
  sum_map_zero (M := M) (items.zipIdx index) ▸ J.says_runElements (fun _ => 0) index h

end Members

/-! ## Rewrites that go through a whole tree -/

end Judgement

/-- A rewrite that visits all members of every dictionary, and goes on with `finish`, and all
elements of every list. -/
structure Rewrite.Descends {σ : Type} (rw : Rewrite σ)
    (finish : Place → Dict Value → Action σ (Option Value)) : Prop where
  onDict : ∀ place d, rw.onDict place d = pure (.members [] none (finish place))
  onItems : ∀ place items, rw.onOther place (.list items) = pure .elements

theorem Rewrite.Descends.visitDict_eq {σ : Type} {rw : Rewrite σ}
    {finish : Place → Dict Value → Action σ (Option Value)} (hrw : rw.Descends finish)
    (again : Value → Visit σ) (d : Dict Value) (branches : List (Branch σ)) (place : Place) :
    rw.visitDict again d branches place =
      rw.runMembers (place.inScope none) branches >>= finish place := by
  have hall : branches.filter (fun branch => !([] : List String).contains branch.1) = branches :=
    List.filter_eq_self.mpr fun _ _ => rfl
  unfold Rewrite.visitDict
  rw [hrw.onDict, pure_bind]
  dsimp only
  rw [hall]

namespace Judgement

open Place (Collects Lists)

variable {σ M : Type} [AddCommMonoid M] (J : Judgement σ M) {setting : Setting σ} {rw : Rewrite σ}
  {finish : Place → Dict Value → Action σ (Option Value)} {again : Value → Visit σ}

/-- **The visits of a rewrite that goes through a whole tree.** What is said of them is said of the
visits of leaves and passed on by dictionaries and lists. It may be said of good values only, if
what lies in a good value is good. -/
theorem says_visitUsing (good : Value → Prop) (post : Value → Option Value → Prop)
    (hrw : rw.Descends finish)
    (hmember : ∀ d, good (.dict d) → ∀ entry ∈ d.entries, good entry.2)
    (hitem : ∀ items, good (.list items) → ∀ item ∈ items, good item)
    (hdict : ∀ place d out, good (.dict d) → J.Says setting (fun result =>
      Collects (fun entry => post entry.2) ∅ (Dict.inKeyOrder d.entries) out →
        post (.dict d) result) (finish place out) 0)
    (hlist : ∀ items out, good (.list items) →
      Lists (fun element => post element.1) (items.zipIdx 0) out →
        post (.list items) (some (.list out)))
    (hleaf : ∀ v place, good v → (∀ d, v ≠ .dict d) → (∀ items, v ≠ .list items) →
      J.Says setting (post v) (rw.visitOther again v none place) 0)
    (v : Value) (hv : good v) (place : Place) :
    J.Says setting (post v) (rw.visitUsing again v place) 0 := by
  induction v using Value.induct generalizing place with
  | dict d ih =>
    rw [Rewrite.visitUsing, Rewrite.memberVisits_eq, hrw.visitDict_eq]
    refine J.says_bind_zero (J.says_runMembers_zero fun entry hentry worker => ?_) fun out =>
      hdict place d out hv
    exact ih entry hentry (hmember d hv entry hentry) _
  | list items ih =>
    rw [Rewrite.visitUsing, Rewrite.elementVisits_eq]
    unfold Rewrite.visitOther
    rw [hrw.onItems, pure_bind]
    refine J.says_bind_pure (J.says_runElements_zero 0 fun element helement => ?_) fun out hout =>
      hlist items out hv hout
    exact ih element.1 helement (hitem items hv element.1 helement) _
  | _ =>
    rw [Rewrite.visitUsing]
    · exact hleaf _ place hv (by simp) (by simp)
    · simp
    · simp

/-- **A run of a rewrite** that gives a dictionary at the root: it is made of the results of the
visits of the members. -/
theorem says_run (post : Value → Option Value → Prop) (made : Dict Value → Dict Value)
    (hrw : rw.Descends finish) {levels : Nat} {d : Dict Value} (hroot : ∀ worker out,
      finish (Place.root worker) out = pure (some (.dict (made out))))
    (h : ∀ entry ∈ d.entries, ∀ place,
      J.Says setting (post entry.2) (rw.visitWithin levels entry.2 place) 0) :
    J.Says setting (fun out => ∃ members,
      Collects (fun entry => post entry.2) ∅ (Dict.inKeyOrder d.entries) members ∧
        out = made members) (rw.run levels d) 0 := by
  unfold Rewrite.run
  refine J.says_bind_zero J.says_nextWorker fun worker => ?_
  rw [Rewrite.visitWithin_dict, hrw.visitDict_eq, bind_assoc]
  refine J.says_bind_zero (J.says_runMembers_zero fun entry hentry worker => h entry hentry _)
    fun members => ?_
  rw [hroot, pure_bind]
  exact J.says_pure fun hmembers _ => ⟨members, hmembers, rfl⟩

end Judgement

end ResourceTree
