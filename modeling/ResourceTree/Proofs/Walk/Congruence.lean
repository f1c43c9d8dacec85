import ResourceTree.Proofs.Compile.Steps

/-!
# Related walks — members visited in two ways

Where two visits of every member are related by something that actions pass on, such as that both
run alike, so are the walks over all members, with one worker or as tasks in any order.

* `Place.batches_map`, `mem_of_mem_batches`, `flatten_batches`: a list cut into batches;
* `Place.picks`, `runBatch_eq`: the tasks of a batch in the order in which they run;
* **`Action.Congruence`**: a relation between actions that is passed on;
* `related_foldlM`, `related_mapM`: actions over lists;
* `related_runSequential`, `related_runFannedOut`, **`related_runMembers`**, `related_runElements`;
* `congruence_eq`, **`runMembers_congr`**, `runElements_congr`: visits that are the same;
* `runMembers_sequential`: a rewrite that never spreads members over tasks;
* `Rewrite.AnyWorker`, **`visitWithin_withWorker`**: which worker walks makes no difference.
-/

namespace ResourceTree

open ResourceTree.Action

namespace Place

variable {α β : Type} {xs : List α} {size fuel : Nat}

/-! ## Batches -/

theorem batches_map (f : α → β) (size fuel : Nat) (xs : List α) :
    batches size fuel (xs.map f) = (batches size fuel xs).map (List.map f) := by
  induction fuel generalizing xs with
  | zero => rfl
  | succ fuel ih =>
    cases xs with
    | nil => rfl
    | cons x rest =>
      show (List.take size (List.map f (x :: rest))) ::
        batches size fuel (List.drop size (List.map f (x :: rest))) = _
      rw [← List.map_take, ← List.map_drop, ih]
      rfl

theorem mem_of_mem_batches {batch : List α} {x : α} (hbatch : batch ∈ batches size fuel xs)
    (hx : x ∈ batch) : x ∈ xs := by
  induction fuel generalizing xs with
  | zero => cases hbatch
  | succ fuel ih =>
    cases xs with
    | nil => cases hbatch
    | cons y rest =>
      rcases List.mem_cons.mp hbatch with rfl | hbatch
      · exact List.mem_of_mem_take hx
      · exact List.mem_of_mem_drop (ih hbatch)

/-- Batches that are not empty hold the whole list, if there may be enough of them. -/
theorem flatten_batches (hsize : 0 < size) (hfuel : xs.length ≤ fuel) :
    (batches size fuel xs).flatten = xs := by
  induction fuel generalizing xs with
  | zero => rw [List.length_eq_zero_iff.mp (Nat.le_zero.mp hfuel)]; rfl
  | succ fuel ih =>
    cases xs with
    | nil => rfl
    | cons x rest =>
      have hrest : ((x :: rest).drop size).length ≤ fuel := by
        rw [List.length_drop]
        omega
      show (x :: rest).take size ++ (batches size fuel ((x :: rest).drop size)).flatten = _
      rw [ih hrest, List.take_append_drop]

/-! ## Tasks -/

/-- The tasks of a batch, in the order in which they come to run, each with its number. -/
def picks (order : List Nat) (tasks : List α) : List (Nat × α) :=
  order.filterMap fun i => (tasks[i]?).map (i, ·)

theorem mem_picks_iff {order : List Nat} {tasks : List α} {pick : Nat × α} :
    pick ∈ picks order tasks ↔ pick.1 ∈ order ∧ tasks[pick.1]? = some pick.2 := by
  refine List.mem_filterMap.trans ⟨?_, fun h => ⟨pick.1, h.1, by rw [h.2]; rfl⟩⟩
  rintro ⟨i, hi, heq⟩
  obtain ⟨task, htask, rfl⟩ := Option.map_eq_some_iff.mp heq
  exact ⟨hi, htask⟩

theorem runBatch_eq {σ : Type} {entries : List (String × Value)} (place : Place)
    (order workers : List Nat) (visit : Value → Visit σ) :
    place.runBatch order (workers.zip (entries.map (Prod.map id visit))) =
      (picks order (workers.zip entries)).mapM fun (i, worker, entry) => do
        return (i, ← place.runBranch worker (entry.1, visit entry.2)) := by
  have hpicks : picks order (workers.zip (entries.map (Prod.map id visit))) =
      (picks order (workers.zip entries)).map (Prod.map id (Prod.map id (Prod.map id visit))) := by
    unfold picks
    rw [List.zip_map_right, List.map_filterMap]
    refine List.filterMap_congr fun i _ => ?_
    rw [List.getElem?_map, Option.map_map, Option.map_map]
    rfl
  show (picks order _).mapM _ = _
  rw [hpicks, List.mapM_map]
  rfl

end Place

namespace Action

variable {σ : Type}

/-! ## Relations that are passed on -/

/-- **A relation between actions that is passed on**: from the parts of an action to the whole, and
that holds of what a walk does beside its visits. -/
structure Congruence (R : (α : Type) → Action σ α → Action σ α → Prop) : Prop where
  pure : ∀ {α : Type} (a : α), R α (pure a) (pure a)
  bind : ∀ {α β : Type} {action action' : Action σ α} {f f' : α → Action σ β},
    R α action action' → (∀ a, R β (f a) (f' a)) → R β (action >>= f) (action' >>= f')
  recover : ∀ {α : Type} {action action' : Action σ α} {handler : Crash → Action σ α},
    R α action action' → (∀ crash, R α (handler crash) (handler crash)) →
      R α (action.recover handler) (action'.recover handler)
  read : R (Setting σ) read read
  nextWorker : R Nat nextWorker nextWorker
  record : ∀ d, R Unit (record d) (record d)

namespace Congruence

variable {R : (α : Type) → Action σ α → Action σ α → Prop} (hR : Congruence R) {α β : Type}

include hR

theorem related_foldlM {f f' : β → α → Action σ β} (xs : List α)
    (h : ∀ b, ∀ x ∈ xs, R β (f b x) (f' b x)) (b : β) : R β (xs.foldlM f b) (xs.foldlM f' b) := by
  induction xs generalizing b with
  | nil => exact hR.pure b
  | cons x xs ih =>
    rw [List.foldlM_cons, List.foldlM_cons]
    exact hR.bind (h b x List.mem_cons_self) fun b' =>
      ih (fun b y hy => h b y (List.mem_cons_of_mem x hy)) b'

theorem related_mapM {f f' : α → Action σ β} (xs : List α) (h : ∀ x ∈ xs, R β (f x) (f' x)) :
    R (List β) (xs.mapM f) (xs.mapM f') := by
  induction xs with
  | nil => exact hR.pure []
  | cons x xs ih =>
    rw [List.mapM_cons, List.mapM_cons]
    exact hR.bind (h x List.mem_cons_self) fun y =>
      hR.bind (ih fun z hz => h z (List.mem_cons_of_mem x hz)) fun ys => hR.pure (y :: ys)

/-! ## Walks -/

variable {visit visit' : Value → Visit σ} {place place' : Place} {entries : List (String × Value)}

theorem related_runSequential
    (h : ∀ entry ∈ entries, R _ (visit entry.2 (place.member entry.1))
      (visit' entry.2 (place'.member entry.1))) :
    R _ (place.runSequential (entries.map (Prod.map id visit)))
      (place'.runSequential (entries.map (Prod.map id visit'))) := by
  unfold Place.runSequential
  rw [List.foldlM_map, List.foldlM_map]
  exact hR.related_foldlM entries
    (fun out entry hentry => hR.bind (h entry hentry) fun result => hR.pure _) ∅

theorem related_runBranch {name : String} {worker : Nat} {action action' : Visit σ}
    (h : R _ (action ((place.member name).withWorker worker))
      (action' ((place'.member name).withWorker worker))) :
    R _ (place.runBranch worker (name, action)) (place'.runBranch worker (name, action')) :=
  hR.recover h fun _ => hR.bind (hR.record _) fun _ => hR.pure none

theorem related_runBatch (order workers : List Nat)
    (h : ∀ entry ∈ entries, ∀ worker, R _ (visit entry.2 ((place.member entry.1).withWorker worker))
      (visit' entry.2 ((place'.member entry.1).withWorker worker))) :
    R _ (place.runBatch order (workers.zip (entries.map (Prod.map id visit))))
      (place'.runBatch order (workers.zip (entries.map (Prod.map id visit')))) := by
  rw [Place.runBatch_eq, Place.runBatch_eq]
  refine hR.related_mapM _ fun (i, worker, entry) hpick => ?_
  have htask := (Place.mem_picks_iff.mp hpick).2
  have hentry : entry ∈ entries := (List.of_mem_zip (List.mem_of_getElem? htask)).2
  exact hR.bind (hR.related_runBranch (h entry hentry worker)) fun result => hR.pure _

theorem related_runFannedOut (fan : FanOut)
    (h : ∀ entry ∈ entries, ∀ worker, R _ (visit entry.2 ((place.member entry.1).withWorker worker))
      (visit' entry.2 ((place'.member entry.1).withWorker worker))) :
    R _ (place.runFannedOut fan (entries.map (Prod.map id visit)))
      (place'.runFannedOut fan (entries.map (Prod.map id visit'))) := by
  unfold Place.runFannedOut
  rw [List.length_map, List.length_map, Place.batches_map, Place.batches_map, List.foldlM_map,
    List.foldlM_map]
  refine hR.related_foldlM _ (fun out batch hbatch => ?_) ∅
  rw [List.mapM_map, List.mapM_map]
  refine hR.bind (hR.related_mapM _ fun _ _ => hR.nextWorker) fun workers => ?_
  refine hR.bind (hR.related_runBatch _ workers fun entry hentry =>
    h entry (Place.mem_of_mem_batches hbatch hentry)) fun results => ?_
  -- setting the results takes the names of the members only
  rw [List.zipIdx_map, List.zipIdx_map, List.foldl_map, List.foldl_map]
  exact hR.pure _

/-- **The members of a dictionary**, visited in two related ways, one after another or as tasks. -/
theorem related_runMembers {rw rw' : Rewrite σ} (hfans : rw'.fansOut place' = rw.fansOut place)
    (hmember : ∀ entry ∈ entries, R _ (visit entry.2 (place.member entry.1))
      (visit' entry.2 (place'.member entry.1)))
    (htask : ∀ entry ∈ entries, ∀ worker,
      R _ (visit entry.2 ((place.member entry.1).withWorker worker))
        (visit' entry.2 ((place'.member entry.1).withWorker worker))) :
    R _ (rw.runMembers place (entries.map (Prod.map id visit)))
      (rw'.runMembers place' (entries.map (Prod.map id visit'))) := by
  have hsequential := hR.related_runSequential fun entry hentry =>
    hmember entry (Dict.inKeyOrder_subset hentry)
  unfold Rewrite.runMembers
  dsimp only
  rw [Dict.inKeyOrder_map, Dict.inKeyOrder_map, List.length_map, List.length_map, hfans]
  refine hR.bind hR.read fun setting => ?_
  cases setting.fanOut with
  | none => exact hsequential
  | some fan =>
    dsimp only
    split_ifs
    · exact hR.related_runFannedOut fan fun entry hentry =>
        htask entry (Dict.inKeyOrder_subset hentry)
    · exact hsequential

theorem related_runElements {items : List Value} (index : Nat)
    (h : ∀ item ∈ items, ∀ i,
      R _ (visit item (place.element i)) (visit' item (place'.element i))) :
    R _ (place.runElements index (items.map visit))
      (place'.runElements index (items.map visit')) := by
  induction items generalizing index with
  | nil => exact hR.pure []
  | cons item rest ih =>
    obtain ⟨hitem, hrest⟩ := List.forall_mem_cons.mp h
    exact hR.bind (hitem index) fun result => hR.bind (ih (index + 1) hrest) fun out => hR.pure _

end Congruence

/-! ## Visits that are the same -/

theorem congruence_eq : Congruence fun (α : Type) (action action' : Action σ α) =>
    action = action' where
  pure _ := rfl
  bind h hf := by rw [h, funext hf]
  recover h _ := by rw [h]
  read := rfl
  nextWorker := rfl
  record _ := rfl

end Action

namespace Rewrite

variable {σ : Type} {rw rw' : Rewrite σ} {visit visit' : Value → Visit σ} {place place' : Place}
  {entries : List (String × Value)}

/-- **A walk depends on its visits at the places of its members only.** -/
theorem runMembers_congr (hfans : rw'.fansOut place' = rw.fansOut place)
    (hmember : ∀ entry ∈ entries,
      visit entry.2 (place.member entry.1) = visit' entry.2 (place'.member entry.1))
    (htask : ∀ entry ∈ entries, ∀ worker,
      visit entry.2 ((place.member entry.1).withWorker worker) =
        visit' entry.2 ((place'.member entry.1).withWorker worker)) :
    rw.runMembers place (entries.map (Prod.map id visit)) =
      rw'.runMembers place' (entries.map (Prod.map id visit')) :=
  congruence_eq.related_runMembers hfans hmember htask

theorem runElements_congr {items : List Value} (index : Nat)
    (h : ∀ item ∈ items, ∀ i, visit item (place.element i) = visit' item (place'.element i)) :
    place.runElements index (items.map visit) = place'.runElements index (items.map visit') :=
  congruence_eq.related_runElements index h

/-- A rewrite that spreads no members over tasks visits them one after another. -/
theorem runMembers_sequential (hfans : rw.fansOut place = false) (branches : List (Branch σ)) :
    rw.runMembers place branches = place.runSequential (Dict.inKeyOrder branches) := by
  funext setting p
  show (rw.runMembers place branches).run setting p = _
  unfold runMembers
  rw [run_read_bind]
  cases setting.fanOut <;> simp only [hfans, Bool.and_false, Bool.false_eq_true, if_false] <;> rfl

/-! ## One step of a walk -/

variable {levels : Nat} {v : Value}

/-- The revisits of a walk with so many levels left. -/
def revisits (rw : Rewrite σ) : Nat → Value → Visit σ
  | 0 => fun _ => exhausted
  | levels + 1 => rw.visitWithin levels

theorem visitWithin_eq (levels : Nat) :
    rw.visitWithin levels = rw.visitUsing (rw.revisits levels) := by
  cases levels <;> rfl

theorem visitWithin_dict (d : Dict Value) : rw.visitWithin levels (.dict d) =
    rw.visitDict (rw.revisits levels) d
      (d.entries.map (Prod.map id (rw.visitWithin levels))) := by
  rw [visitWithin_eq, visitUsing, memberVisits_eq]
  rfl

theorem visitWithin_items (items : List Value) : rw.visitWithin levels (.list items) =
    rw.visitOther (rw.revisits levels) (.list items)
      (some (items.map (rw.visitWithin levels))) := by
  rw [visitWithin_eq, visitUsing, elementVisits_eq]

theorem visitWithin_other (hdict : ∀ d, v ≠ .dict d) (hlist : ∀ items, v ≠ .list items) :
    rw.visitWithin levels v = rw.visitOther (rw.revisits levels) v none := by
  rw [visitWithin_eq, visitUsing]
  · exact fun _ _ h => hdict _ h
  · exact fun _ h => hlist _ h

/-! ## Workers -/

/-- A rewrite that does the same whichever worker walks. -/
structure AnyWorker (rw : Rewrite σ) : Prop where
  onDict : ∀ place d worker, rw.onDict (place.withWorker worker) d = rw.onDict place d
  onOther : ∀ place v worker, rw.onOther (place.withWorker worker) v = rw.onOther place v
  fansOut : ∀ place worker, rw.fansOut (place.withWorker worker) = rw.fansOut place

theorem runMembers_withWorker (hrw : rw.AnyWorker) (place : Place) (worker : Nat)
    (h : ∀ entry ∈ entries, ∀ place worker,
      visit entry.2 (place.withWorker worker) = visit entry.2 place) :
    rw.runMembers (place.withWorker worker) (entries.map (Prod.map id visit)) =
      rw.runMembers place (entries.map (Prod.map id visit)) :=
  -- each task has a worker of its own
  runMembers_congr (hrw.fansOut place worker).symm
    (fun entry hentry => h entry hentry (place.member entry.1) worker) fun _ _ _ => rfl

theorem visitOther_withWorker {again : Value → Visit σ} (hrw : rw.AnyWorker)
    (hagain : ∀ v place worker, again v (place.withWorker worker) = again v place)
    {place : Place} {worker : Nat} {visits : Option (List (Visit σ))}
    (h : ∀ vs ∈ visits, (place.withWorker worker).runElements 0 vs = place.runElements 0 vs) :
    rw.visitOther again v visits (place.withWorker worker) =
      rw.visitOther again v visits place := by
  unfold visitOther
  rw [hrw.onOther]
  refine bind_congr fun plan => ?_
  cases plan with
  | drop | keep => rfl
  | revisit v => exact hagain v place.deeper worker
  | unfold d finish =>
    exact congrArg (· >>= finish) <|
      runMembers_withWorker hrw place.deeper worker fun entry _ => hagain entry.2
  | elements =>
    cases visits with
    | none => rfl
    | some visits =>
      exact congrArg (· >>= fun out => pure (some (Value.list out))) (h visits rfl)

theorem visitUsing_withWorker {again : Value → Visit σ} (hrw : rw.AnyWorker)
    (hagain : ∀ v place worker, again v (place.withWorker worker) = again v place)
    (v : Value) (place : Place) (worker : Nat) :
    rw.visitUsing again v (place.withWorker worker) = rw.visitUsing again v place := by
  induction v using Value.induct generalizing place worker with
  | dict d ih =>
    rw [visitUsing, memberVisits_eq]
    unfold visitDict
    rw [hrw.onDict]
    refine bind_congr fun plan => ?_
    cases plan with
    | drop => rfl
    | revisit d => exact hagain (.dict d) place.deeper worker
    | members without scope finish =>
      dsimp only
      rw [List.filter_map]
      exact congrArg (· >>= finish) <| runMembers_withWorker hrw (place.inScope scope) worker
        fun entry hentry => ih entry (List.mem_of_mem_filter hentry)
  | list items ih =>
    rw [visitUsing, elementVisits_eq]
    refine visitOther_withWorker hrw hagain fun visits hvisits => ?_
    obtain rfl := Option.some.inj hvisits
    exact runElements_congr 0 fun item hitem i => ih item hitem (place.element i) worker
  | _ =>
    rw [visitUsing]
    · exact visitOther_withWorker hrw hagain (by simp)
    · simp
    · simp

/-- **Which worker walks makes no difference** to a rewrite that does not ask. -/
theorem visitWithin_withWorker (hrw : rw.AnyWorker) (levels : Nat) (v : Value) (place : Place)
    (worker : Nat) :
    rw.visitWithin levels v (place.withWorker worker) = rw.visitWithin levels v place := by
  induction levels generalizing v place worker with
  | zero => exact visitUsing_withWorker hrw (fun _ _ _ => rfl) v place worker
  | succ levels ih => exact visitUsing_withWorker hrw ih v place worker

/-- A whole run, told apart from the number of its worker. -/
theorem run_eq_root (hrw : rw.AnyWorker) (levels : Nat) (d : Dict Value) :
    rw.run levels d = nextWorker >>= fun _ =>
      rw.visitWithin levels (.dict d) (Place.root 0) >>= fun result => match result with
        | some (.dict out) => pure out
        | some v => handles >>= fun hs => pure ((hs.toDict? v).getD ∅)
        | none => pure ∅ := by
  unfold run
  refine bind_congr fun worker => ?_
  rw [← visitWithin_withWorker hrw levels _ (Place.root 0) worker]
  rfl

end Rewrite

end ResourceTree
