import ResourceTree.Proofs.Compile.Encodable

/-!
# Fenced root entries — panics in the tasks of a compile

Where the root entries of a tree are visited by tasks, a panic in one of them drops that entry, is
recorded where it arose, and goes no further. A panic anywhere else ends the compile.

* **`Action.Contained`**, `contained`: an action that does not break off, and what it gives where
  the diagnostics in the end are known;
* **`Tasked`**, `contained_runBranch`: the visit of a root entry by a task of its own;
* **`Fenced`**, `fenced_of_collects`, `exists_fenced`: a tree whose root entries tasks have visited;
* `Progress.Spares`, **`spares_of_panic`**: a load that panics leaves alone what is there;
* `opened`, `live`, **`Compiler.compileWith_fenced`**: a compile in which callbacks panic;
* `Compiler.alone`, `not_output_panicking`: compiles that a panic ends.
-/

namespace ResourceTree

open ResourceTree.Action

/-! ## Actions that do not break off -/

namespace Action

variable {σ α β : Type} {inv : Progress σ → Prop} {errors : List Diagnostic}
  {setting : Setting σ} {post : α → Prop} {action : Action σ α}

/-- **An action that does not break off**, keeps an invariant and takes no diagnostic away. If the
diagnostics in the end are among `errors`, its outcome is as `post` says. -/
def Contained (inv : Progress σ → Prop) (errors : List Diagnostic) (setting : Setting σ)
    (post : α → Prop) (action : Action σ α) : Prop :=
  ∀ p, inv p → ∃ a q, action.run setting p = (.ok a, q) ∧ inv q ∧
    p.errors.toList ⊆ q.errors.toList ∧ (q.errors.toList ⊆ errors → post a)

theorem contained_pure {a : α} (h : post a) : Contained inv errors setting post (pure a) :=
  fun p hp => ⟨a, p, rfl, hp, List.Subset.refl _, fun _ => h⟩

theorem Contained.bind_always {always : α → Prop} {post' : β → Prop} {f : α → Action σ β}
    (h : Contained inv errors setting post action) (halways : Always setting always action)
    (hf : ∀ a, always a → Contained inv errors setting (fun b => post a → post' b) (f a)) :
    Contained inv errors setting post' (action >>= f) := by
  intro p hp
  obtain ⟨a, q, hrun, hq, htold, hpost⟩ := h p hp
  obtain ⟨b, r, hrun', hr, htold', hpost'⟩ := hf a (halways p a q hrun) q hq
  refine ⟨b, r, run_bind_ok.mpr ⟨a, q, hrun, hrun'⟩, hr, List.Subset.trans htold htold', ?_⟩
  exact fun herrors => hpost' herrors (hpost (List.Subset.trans htold' herrors))

/-- **That actions do not break off is a judgement**, which counts nothing. -/
def contained (inv : Progress σ → Prop) (hinv : Progress.Steady inv) (errors : List Diagnostic) :
    Judgement σ Nat where
  Says setting post action _ := Contained inv errors setting post action
  says_pure := contained_pure
  says_bind_always halways h hf := h.bind_always halways hf
  says_read_bind h := h
  says_nextWorker p hp :=
    ⟨p.nextWorker, _, rfl, hinv p .worker hp, List.Subset.refl _, fun _ => trivial⟩
  says_branch h p hp := by
    obtain ⟨a, q, hrun, hq⟩ := h p hp
    refine ⟨a, q, ?_, hq⟩
    rw [Place.runBranch, run_recover, hrun]

end Action

/-- Some diagnostics are recorded, whatever the objects are. -/
abbrev Progress.Told {σ : Type} (seen : List Diagnostic) (p : Progress σ) : Prop :=
  p.Sound (fun _ => True) seen

theorem Action.Safe.told {σ α : Type} {breaks : Prop} {setting : Setting σ} {post : α → Prop}
    {action : Action σ α} (h : ∀ seen, Safe (Progress.Told seen) breaks setting post action)
    {p q : Progress σ} {r : Except Crash α} (hrun : action.run setting p = (r, q)) :
    p.errors.toList ⊆ q.errors.toList := by
  have hp : p.Told p.errors.toList :=
    ⟨fun _ _ _ => trivial, fun _ he => Array.mem_toList_iff.mp he⟩
  have hq := (h p.errors.toList p r q hp hrun).1
  exact fun e he => Array.mem_toList_iff.mpr (hq.errors e he)

/-- No object panics when it is asked for siblings. -/
def Store.OffersQuietly {σ : Type} [ObjectClass σ] (s : Store σ) : Prop :=
  ∀ ref object self panic, s.object? ref = some object →
    ObjectClass.siblings object self ≠ .error panic

/-- The objects are those of a store, and some diagnostics are recorded. -/
structure Progress.KeepsObjects {σ : Type} (s : Store σ) (told : List Diagnostic)
    (p : Progress σ) : Prop where
  objects : p.store.objects = s.objects
  errors : ∀ e ∈ told, e ∈ p.errors

/-! ## What is spared -/

namespace Action

variable {σ α β : Type} {inv : Progress σ → Prop} {breaks : Prop} {setting : Setting σ}
  {post : α → Prop} {action : Action σ α} {f : α → Action σ β}

/-- **An action that keeps an invariant if it breaks off.** -/
def Retreats (inv : Progress σ → Prop) (setting : Setting σ) (action : Action σ α) : Prop :=
  ∀ p crash q, inv p → action.run setting p = (.error crash, q) → inv q

theorem Safe.retreats (h : Safe inv True setting (fun _ => True) action) :
    Retreats inv setting action := fun p _ q hp hrun => (h p _ q hp hrun).1

theorem retreats_of_safe (h : Safe (fun _ => True) False setting (fun _ => True) action) :
    Retreats inv setting action := by
  intro p crash q _ hrun
  obtain ⟨-, hbreaks | ⟨_, ⟨⟩, -⟩⟩ := h p _ q trivial hrun
  exact hbreaks.elim

theorem Safe.bind_retreats (h : Safe inv breaks setting post action)
    (hf : ∀ a, Retreats inv setting (f a)) : Retreats inv setting (action >>= f) := by
  intro p crash q hp hrun
  rw [run_bind] at hrun
  cases haction : action.run setting p with
  | mk r middle =>
    have hmiddle := (h p r middle hp haction).1
    rw [haction] at hrun
    cases r with
    | error other =>
      cases hrun
      exact hmiddle
    | ok a => exact hf a middle crash q hmiddle hrun

theorem retreats_read_bind {f : Setting σ → Action σ β} (h : Retreats inv setting (f setting)) :
    Retreats inv setting (read >>= f) := h

end Action

/-- **Whatever was there is as it was**: every object, every slot behind a handle, and the handle of
every name. -/
structure Progress.Spares {σ : Type} (p q : Progress σ) : Prop where
  objects : ∀ (i : Nat) (object : Option σ), p.store.objects[i]? = some object →
    q.store.objects[i]? = some object
  slots : ∀ (i : Nat) (slot : Option Slot), p.store.handles.slots[i]? = some slot →
    q.store.handles.slots[i]? = some slot
  references : ∀ name h, p.references.get? name = some h → q.references.get? name = some h

theorem Progress.spares_self {σ : Type} (p : Progress σ) : p.Spares p :=
  ⟨fun _ _ h => h, fun _ _ h => h, fun _ _ h => h⟩

theorem steady_spares {σ : Type} {start : Progress σ} : Progress.Steady start.Spares := by
  intro p note h
  cases note <;> exact ⟨h.objects, h.slots, h.references⟩

theorem getElem?_push_of_some {α : Type} {xs : Array α} {i : Nat} {x y : α}
    (h : xs[i]? = some x) : (xs.push y)[i]? = some x := by
  have hlt := (Array.getElem?_eq_some_iff.mp h).1
  rw [Array.getElem?_push, if_neg (Nat.ne_of_lt hlt)]
  exact h

theorem Progress.Spares.addObject {σ : Type} {start p : Progress σ} (h : start.Spares p)
    (typeName : String) (object : σ) :
    start.Spares { p with store := (p.store.addObject typeName object).2 } :=
  ⟨fun i other hother => getElem?_push_of_some (h.objects i other hother), h.slots, h.references⟩

namespace Compile

variable {σ : Type} {errors : List Diagnostic} {setting : Setting σ}
  {visit : Value → Visit σ} {name : String} {v : Value} {d out : Dict Value}
  {start : Progress σ}

/-! ## Root entries -/

/-- **What the visits of root entries lead to**, whether they panic or not. -/
inductive Led (visit : Value → Visit σ) (setting : Setting σ) (d : Dict Value)
    (start : Progress σ) : Progress σ → Prop where
  | start : Led visit setting d start start
  | note {p : Progress σ} (led : Led visit setting d start p) (note : Note) :
      Led visit setting d start (p.note note)
  | visited {worker : Nat} {name : String} {v : Value} {p q : Progress σ}
      {r : Except Crash (Option Value)} (led : Led visit setting d start p)
      (entry : (name, v) ∈ d.entries)
      (run : (visit v ((Place.root worker).member name)).run setting p = (r, q)) :
      Led visit setting d start q

theorem steady_led : Progress.Steady (Led visit setting d start) := fun _ note h => h.note note

/-- **A task of its own visited a root entry**, where only root entries had been visited, and all
diagnostics that were there then are among `errors`. It gave its result, or it panicked: then the
entry was dropped, and the panic is among them, too. -/
inductive Tasked (visit : Value → Visit σ) (setting : Setting σ) (d : Dict Value)
    (start : Progress σ) (errors : List Diagnostic) (name : String) (v : Value) :
    Option Value → Prop where
  | given {worker : Nat} {p q : Progress σ} {result : Option Value}
      (led : Led visit setting d start p)
      (run : (visit v ((Place.root worker).member name)).run setting p = (.ok result, q))
      (told : q.errors.toList ⊆ errors) : Tasked visit setting d start errors name v result
  | panicked {worker : Nat} {p q : Progress σ} {crash : Crash}
      (led : Led visit setting d start p)
      (run : (visit v ((Place.root worker).member name)).run setting p = (.error crash, q))
      (told : q.errors.toList ⊆ errors)
      (recorded : ⟨.instantiation, crash.path, s!"panic while compiling '{name}'"⟩ ∈ errors) :
      Tasked visit setting d start errors name v none

/-- **The task of a root entry** does not break off, even if its visit does. -/
theorem contained_runBranch (hentry : (name, v) ∈ d.entries)
    (h : ∀ place seen, Safe (Progress.Told seen) True setting (fun _ => True) (visit v place))
    (root worker : Nat) :
    Contained (Led visit setting d start) errors setting
      (Tasked visit setting d start errors name v)
      ((Place.root root).runBranch worker (name, visit v)) := by
  intro p hp
  unfold Place.runBranch
  rw [run_recover]
  cases hrun : (visit v ((Place.root worker).member name)).run setting p with
  | mk r q =>
    have htold := Safe.told (h _) hrun
    have hq : Led visit setting d start q := hp.visited hentry hrun
    have hplace : ((Place.root root).member name).withWorker worker =
        (Place.root worker).member name := rfl
    dsimp only
    rw [hplace, hrun]
    cases r with
    | ok result => exact ⟨result, q, rfl, hq, htold, .given hp hrun⟩
    | error crash =>
      have hpush : q.errors.toList ⊆ (q.errors.push
          ⟨.instantiation, crash.path, s!"panic while compiling '{name}'"⟩).toList := by
        rw [Array.toList_push]
        exact List.subset_append_left _ _
      refine ⟨none, _, rfl, hq.note (.diagnostic _), List.Subset.trans htold hpush, ?_⟩
      exact fun herrors => .panicked hp hrun (List.Subset.trans hpush herrors)
        (herrors (by rw [Array.toList_push]; exact List.mem_append_right _ List.mem_cons_self))

/-- **A tree whose root entries were visited by tasks.** What stands under a name is the result of
the visit of the entry, and null stands for nothing. -/
structure Fenced (visit : Value → Visit σ) (setting : Setting σ) (start : Progress σ)
    (errors : List Diagnostic) (d out : Dict Value) : Prop where
  visited : ∀ name v, d.get? name = some v → ∃ result,
    Tasked visit setting d start errors name v result ∧
    out.get? name = result.filter fun w => !w.isNull
  names : ∀ name, d.get? name = none → out.get? name = none

theorem fenced_of_collects (h : Place.Collects
      (fun entry => Tasked visit setting d start errors entry.1 entry.2) ∅
      (Dict.inKeyOrder d.entries) out) :
    Fenced visit setting start errors d out := by
  obtain ⟨visited, hnames, hresults, rfl⟩ := h
  have hsorted : (Dict.names (visited.map Prod.fst)).Pairwise (· < ·) := by
    rw [hnames]
    exact Dict.pairwise_inKeyOrder
  constructor
  · intro name v hv
    rw [Dict.get?, ← Dict.lookup_inKeyOrder, ← hnames,
      Dict.lookup_eq_some_iff_mem (hsorted.imp fun hlt => ne_of_lt hlt)] at hv
    obtain ⟨member, hmember, heq⟩ := List.mem_map.mp hv
    have hresult := hresults member hmember
    have hfound := Place.get?_collect hsorted hmember
    rw [heq] at hresult hfound
    exact ⟨member.2, hresult, hfound⟩
  · intro name hv
    have hname : name ∉ Dict.names (visited.map Prod.fst) := by
      rw [hnames, ← Dict.lookup_eq_none_iff_names, Dict.lookup_inKeyOrder]
      exact hv
    have hcontains := contains_collect hname
    rwa [Dict.contains, Option.isSome_eq_false_iff, Option.isNone_iff_eq_none] at hcontains

theorem Tasked.mono {more : List Diagnostic} {result : Option Value}
    (h : Tasked visit setting d start errors name v result) (hsub : errors ⊆ more) :
    Tasked visit setting d start more name v result := by
  cases h with
  | given led run told => exact .given led run (List.Subset.trans told hsub)
  | panicked led run told recorded =>
    exact .panicked led run (List.Subset.trans told hsub) (hsub recorded)

theorem Fenced.mono {more : List Diagnostic} (h : Fenced visit setting start errors d out)
    (hsub : errors ⊆ more) : Fenced visit setting start more d out where
  visited name v hv :=
    let ⟨result, htasked, hresult⟩ := h.visited name v hv
    ⟨result, htasked.mono hsub, hresult⟩
  names := h.names

section Rewrites

variable {rw : Rewrite σ} {finish : Place → Dict Value → Action σ (Option Value)} {levels : Nat}
  {fan : FanOut}

/-- The root entries are visited by tasks where there is more than one. -/
theorem contained_run (errors : List Diagnostic) (hrw : rw.Descends finish)
    (hroot : ∀ worker out, finish (Place.root worker) out = pure (some (.dict out)))
    (hfans : ∀ worker, rw.fansOut (Place.root worker) = true) (hfan : setting.fanOut = some fan)
    (hmany : 1 < (Dict.inKeyOrder d.entries).length)
    (hvisit : ∀ v place seen, Safe (Progress.Told seen) True setting (fun _ => True)
      (rw.visitWithin levels v place)) :
    Contained (Led (rw.visitWithin levels) setting d start) errors setting
      (fun out => Fenced (rw.visitWithin levels) setting start errors d out ∧ out.WellFormed)
      (rw.run levels d) := by
  have hmembers : ∀ worker, Contained (Led (rw.visitWithin levels) setting d start) errors setting
      (Place.Collects
        (fun entry => Tasked (rw.visitWithin levels) setting d start errors entry.1 entry.2) ∅
        (Dict.inKeyOrder d.entries))
      (rw.runMembers (Place.root worker)
        (d.entries.map (Prod.map id (rw.visitWithin levels)))) := by
    intro worker
    unfold Rewrite.runMembers
    dsimp only
    rw [Dict.inKeyOrder_map]
    refine (contained _ steady_led errors).says_read_bind (m := 0) ?_
    rw [hfan]
    dsimp only
    rw [List.length_map, hfans, Bool.and_true, if_pos (decide_eq_true hmany)]
    exact (contained _ steady_led errors).says_runFannedOut fan (fun _ => 0)
      fun entry hentry task =>
        contained_runBranch (Dict.inKeyOrder_subset hentry) (hvisit entry.2) worker task
  unfold Rewrite.run
  refine (contained _ steady_led errors).says_bind_zero
    (contained _ steady_led errors).says_nextWorker fun worker => ?_
  rw [Rewrite.visitWithin_dict, hrw.visitDict_eq, bind_assoc]
  refine (contained _ steady_led errors).says_bind_zero (hmembers worker) fun members => ?_
  rw [hroot, pure_bind]
  exact contained_pure fun hmembers _ => ⟨fenced_of_collects hmembers, hmembers.clean.1⟩

/-- **A rewrite whose root entries are visited by tasks** does not break off, even if visits do. -/
theorem exists_fenced (hrw : rw.Descends finish)
    (hroot : ∀ worker out, finish (Place.root worker) out = pure (some (.dict out)))
    (hfans : ∀ worker, rw.fansOut (Place.root worker) = true) (hfan : setting.fanOut = some fan)
    (hmany : 1 < (Dict.inKeyOrder d.entries).length)
    (hvisit : ∀ v place seen, Safe (Progress.Told seen) True setting (fun _ => True)
      (rw.visitWithin levels v place)) (p : Progress σ) :
    ∃ out q, (rw.run levels d).run setting p = (.ok out, q) ∧
      p.errors.toList ⊆ q.errors.toList ∧
      Fenced (rw.visitWithin levels) setting p q.errors.toList d out ∧ out.WellFormed := by
  obtain ⟨out, q, hrun, -, htold, -⟩ :=
    contained_run [] hrw hroot hfans hfan hmany hvisit p .start
  obtain ⟨out', q', hrun', -, -, hpost⟩ :=
    contained_run q.errors.toList hrw hroot hfans hfan hmany hvisit p .start
  cases hrun.symm.trans hrun'
  exact ⟨out, q, hrun, htold, hpost (List.Subset.refl _)⟩

end Rewrites

/-! ## Loads that panic -/

section Loads

theorem safe_reference_spares (name : String) :
    Safe start.Spares True setting (fun _ => True) (reference name) := by
  refine safe_modifyGet fun p hp => ?_
  dsimp only
  split
  · exact hp
  · next hnew =>
    refine ⟨hp.objects, fun i slot hslot => getElem?_push_of_some (hp.slots i slot hslot),
      fun other h hother => ?_⟩
    have hthere := hp.references other h hother
    have hne : other ≠ name := by
      rintro rfl
      cases hnew.symm.trans hthere
    exact (Dict.get?_insert.trans (if_neg hne)).trans hthere

theorem safe_perform_spares (loading : Loading σ) (place : Place) :
    Safe start.Spares True setting (fun _ => True) (loading.perform place) :=
  safe_perform steady_spares safe_reference_spares (yields_true loading) place

variable [ObjectClass σ]

theorem safe_instantiate_spares {place : Place} (hplace : place.rootKey? = none)
    (members : Dict Value) :
    Safe start.Spares True setting (fun _ => True) (instantiate place members) := by
  refine instantiate_cases (fun _ h => safe_read_bind h) (safe_pure trivial)
    (fun kind message => safe_addError_pure steady_spares place kind message trivial)
    fun _ fresh _ _ => ?_
  unfold loadObject
  refine safe_read_bind ((safe_perform_spares _ place).andThen fun loaded => ?_)
  cases loaded with
  | error e => exact safe_addError_pure steady_spares place _ _ trivial
  | ok object =>
    have hkeep : Safe start.Spares True setting (fun _ => True)
        (withStore fun s => s.addObject (ObjectClass.typeName object) object) :=
      safe_modifyGet fun p hp => hp.addObject _ object
    refine hkeep.andThen fun ref => ?_
    simp only [hplace]
    exact safe_pure trivial

theorem rootKey?_of_length {place : Place} (h : 2 ≤ place.reversedPath.length) :
    place.rootKey? = none := by
  unfold Place.rootKey?
  split
  · next name hpath =>
    rw [hpath] at h
    simp at h
  · rfl

/-- **What is visited below a root entry spares what is there.** -/
theorem safe_visit_spares (v : Value) (place : Place) (hplace : 2 ≤ place.reversedPath.length) :
    Safe start.Spares True setting (fun _ => True)
      ((instantiated : Rewrite σ).visitWithin 0 v place) := by
  induction v using Value.induct generalizing place with
  | dict d ih =>
    rw [Rewrite.visitWithin_dict, descends_instantiated.visitDict_eq]
    refine Safe.andThen ((safe _ steady_spares True).says_runMembers_zero fun entry hentry worker =>
      ih entry hentry _ (Nat.le_succ_of_le hplace)) fun out => ?_
    exact safe_instantiate_spares (rootKey?_of_length hplace) out
  | list items ih =>
    rw [Rewrite.visitWithin_items]
    exact Safe.bind_pure ((safe _ steady_spares True).says_runElements_zero 0
      fun element helement => ih element.1 helement _ (Nat.le_succ_of_le hplace)) fun _ _ => trivial
  | _ =>
    rw [Rewrite.visitWithin_other (by simp) (by simp)]
    exact safe_pure trivial

theorem retreats_loadObject (place : Place) (fresh : σ) (members : Dict Value) :
    Retreats start.Spares setting (loadObject place fresh members) := by
  unfold loadObject
  refine retreats_read_bind ((safe_perform_spares _ place).bind_retreats fun loaded => ?_)
  cases loaded with
  | error e => exact (safe_addError_pure steady_spares place _ _ trivial).retreats
  | ok object =>
    refine retreats_of_safe (Safe.andThen (safe_modifyGet fun _ _ => trivial) fun ref => ?_)
    dsimp only
    split
    · exact (safe_modifyGet fun _ _ => trivial).andThen fun _ => safe_pure trivial
    · exact safe_pure trivial

theorem retreats_instantiate (place : Place) (members : Dict Value) :
    Retreats start.Spares setting (instantiate place members : Action σ _) :=
  instantiate_cases (fun _ h => retreats_read_bind h) (safe_pure trivial).retreats
    (fun kind message =>
      (safe_addError_pure steady_spares place kind message trivial).retreats)
    fun _ fresh _ _ => retreats_loadObject place fresh members

/-- **A load that panics below a root entry leaves alone what is there.** -/
theorem spares_of_panic {worker : Nat} {p q : Progress σ} {crash : Crash}
    (hrun : ((instantiated : Rewrite σ).visitWithin 0 v
      ((Place.root worker).member name)).run setting p = (.error crash, q)) : p.Spares q := by
  have hretreats : Retreats p.Spares setting ((instantiated : Rewrite σ).visitWithin 0 v
      ((Place.root worker).member name)) := by
    cases v with
    | dict d =>
      rw [Rewrite.visitWithin_dict, descends_instantiated.visitDict_eq]
      exact Safe.bind_retreats ((safe _ steady_spares True).says_runMembers_zero
        fun entry _ task => safe_visit_spares entry.2 _ (Nat.le_refl 2))
        fun out => retreats_instantiate _ out
    | list items =>
      rw [Rewrite.visitWithin_items]
      refine Safe.retreats ?_
      exact Safe.bind_pure ((safe _ steady_spares True).says_runElements_zero 0
        fun element _ => safe_visit_spares element.1 _ (by exact Nat.le_refl 2)) fun _ _ => trivial
    | _ =>
      rw [Rewrite.visitWithin_other (by simp) (by simp)]
      exact (safe_pure trivial).retreats
  exact hretreats p crash q p.spares_self hrun

end Loads

/-! ## The steps of a compile -/

/-- The tree that is instantiated. -/
def opened (dir : Path) (d : Dict Value) : Action σ (Dict Value) := do
  let d ← (anchored dir).run 0 d
  expanded.run revisitLimit d

theorem safe_opened {seen : List Diagnostic} {breaks : Prop} (dir : Path) (d : Dict Value) :
    Safe (Progress.Told seen) breaks setting (fun _ => True) (opened dir d : Action σ _) :=
  (safe_run_anchored Progress.lasting_sound dir d).andThen fun d =>
    safe_run_expanded Progress.lasting_sound d

theorem always_opened (dir : Path) (d : Dict Value) :
    Always setting Dict.WellFormed (opened dir d : Action σ _) := by
  refine always_true.bind fun d _ p out q hrun => ?_
  have hleaves := (gives_run_leaves setting d).always fun _ => trivial
  exact (hleaves p out q hrun).2.root

theorem length_inKeyOrder (h : d.WellFormed) : (Dict.inKeyOrder d.entries).length = d.size :=
  (Dict.inKeyOrder_perm h.nodup).length_eq

section Objects

variable [ObjectClass σ]

/-- The tree whose objects are finished. -/
def live (dir : Path) (d : Dict Value) : Action σ (Dict Value) := do
  let d ← opened dir d
  instantiated.run 0 d

theorem unsaved_eq_opened (dir : Path) (d : Dict Value) :
    (unsaved dir d : Action σ _) = opened dir d >>= fun d => do
      let asked := requestsPacking (← Action.handles) d
      let d ← instantiated.run 0 d
      let d ← finished.run 0 d
      let d ← extended d
      return (d, asked) := by
  simp only [unsaved, opened, bind_assoc]

variable {before made done : Dict Value} {p q r : Progress σ}

/-- The siblings decide how the steps before a tree is saved end. -/
theorem run_unsaved_of_finished {dir : Path}
    (hbefore : (opened dir d).run setting start = (.ok before, p))
    (hmade : (instantiated.run 0 before).run setting p = (.ok made, q))
    (hdone : (finished.run 0 made).run setting q = (.ok done, r)) :
    (unsaved dir d).run setting start =
      (((extended done).run setting r).1.map (·, requestsPacking p.store.handles before),
        ((extended done).run setting r).2) := by
  rw [unsaved_eq_opened, run_bind_of_ok hbefore, run_bind_of_ok run_handles,
    run_bind_of_ok hmade, run_bind_of_ok hdone, run_bind]
  rcases (extended done).run setting r with ⟨crash | tree, p'⟩ <;> rfl

theorem exists_instantiated {fan : FanOut} (hfan : setting.fanOut = some fan) (hd : d.WellFormed)
    (hmany : 1 < d.size) (p : Progress σ) :
    ∃ out q, (instantiated.run 0 d).run setting p = (.ok out, q) ∧
      p.errors.toList ⊆ q.errors.toList ∧
      Fenced (instantiated.visitWithin 0) setting p q.errors.toList d out ∧ out.WellFormed :=
  exists_fenced descends_instantiated (fun _ _ => rfl) (fun _ => rfl) hfan
    (by rwa [length_inKeyOrder hd]) (fun v place _ => safe_visit_instantiated
      Progress.lasting_sound (fun _ _ _ => yields_true _) (fun _ _ _ => trivial) v place) p

theorem exists_finished {fan : FanOut} (hfan : setting.fanOut = some fan) (hd : d.WellFormed)
    (hmany : 1 < d.size) (p : Progress σ) :
    ∃ out q, (finished.run 0 d).run setting p = (.ok out, q) ∧
      p.errors.toList ⊆ q.errors.toList ∧
      Fenced (finished.visitWithin 0) setting p q.errors.toList d out ∧ out.WellFormed :=
  exists_fenced descends_finished (fun _ _ => rfl) (fun _ => rfl) hfan
    (by rwa [length_inKeyOrder hd]) (fun v place _ => safe_visit_finished
      Progress.lasting_sound (fun _ _ _ => ⟨fun _ _ => trivial, fun _ _ => trivial⟩) v place) p

/-- **Siblings** change no object, and break off only if an object that is there panics. -/
theorem safe_extended_keeps {s : Store σ} {told : List Diagnostic} (d : Dict Value) :
    Safe (Progress.KeepsObjects s told) (¬ s.OffersQuietly) setting (fun _ => True)
      (extended d : Action σ _) := by
  refine safe_extended ?_ (fun name v => ?_) ?_ d
  · intro p note h
    cases note with
    | diagnostic d => exact ⟨h.objects, fun e he => Array.mem_push_of_mem d (h.errors e he)⟩
    | file | worker => exact ⟨h.objects, h.errors⟩
  · refine safe_modifyGet fun p h => ?_
    dsimp only
    split <;> exact ⟨h.objects, h.errors⟩
  · intro p ref object self panic h hfound hpanics hquiet
    rw [Store.object?, h.objects] at hfound
    exact hquiet ref object self panic hfound hpanics

end Objects

end Compile

/-! ## Compiles -/

namespace Compiler

variable {φ σ : Type} [FileSystem φ] [ObjectClass σ] {c : Compiler φ σ} {s : Store σ}
  {dir : Path} {source : Option Path} {d : Dict Value}

/-- **The root entries of a compile were fenced off** while they were instantiated and finished.
Loads that panicked have left alone what was there. -/
def Fences (c : Compiler φ σ) (s : Store σ) (dir : Path) (source : Option Path) (d : Dict Value)
    (o : Output) : Prop :=
  ∃ before p made q done r tree p' packed,
    (Compile.opened dir d).run (c.settingIn dir)
      { Progress.initial s with files := source.toList } = (.ok before, p) ∧
    (Compile.instantiated.run 0 before).run (c.settingIn dir) p = (.ok made, q) ∧
    Compile.Fenced (Compile.instantiated.visitWithin 0) (c.settingIn dir) p o.errors before made ∧
    (∀ worker name v p q crash, (Compile.instantiated.visitWithin 0 v
      ((Place.root worker).member name)).run (c.settingIn dir) p = (.error crash, q) →
        p.Spares q) ∧
    (Compile.finished.run 0 made).run (c.settingIn dir) q = (.ok done, r) ∧
    Compile.Fenced (Compile.finished.visitWithin 0) (c.settingIn dir) q o.errors made done ∧
    (Compile.extended done).run (c.settingIn dir) r = (.ok tree, p') ∧
    Compile.Packs p'.store (.dict tree) (.dict packed) ∧
    o.dict = packed.set Reserved.files (.list (o.files.map fun path => .string path.text))

/-- A compile whose objects are finished: it gives an output if of the objects that are there in the
end none panics when it is asked for siblings or saved, and the saved forms nest finitely. -/
theorem compileWith_of_finished {before made done : Dict Value} {p q r : Progress σ}
    (hbefore : (Compile.opened dir d).run (c.settingIn dir)
      { Progress.initial s with files := source.toList } = (.ok before, p))
    (hmade : (Compile.instantiated.run 0 before).run (c.settingIn dir) p = (.ok made, q))
    (hdone : (Compile.finished.run 0 made).run (c.settingIn dir) q = (.ok done, r))
    (hoffers : (c.compileWith s dir source d).store.OffersQuietly)
    (hsaves : (c.compileWith s dir source d).store.SavesQuietly)
    (hnests : (c.compileWith s dir source d).store.SavesFinitely) :
    ∃ tree p' packed q', (Compile.extended done).run (c.settingIn dir) r = (.ok tree, p') ∧
      Compile.Packs p'.store (.dict tree) (.dict packed) ∧
      r.errors.toList ⊆ q'.errors.toList ∧ c.compileWith s dir source d =
        ⟨.ok (Compile.outputOf (packed, Compile.requestsPacking p.store.handles before) q',
          q'.finished.toList), q'.store, c.files⟩ := by
  have hunsaved := Compile.run_unsaved_of_finished hbefore hmade hdone
  cases hextend : (Compile.extended done).run (c.settingIn dir) r with
  | mk outcome p' =>
    rw [hextend] at hunsaved
    have hstore : (c.compileWith s dir source d).store = p'.store := by
      cases outcome with
      | error crash =>
        rw [compileWith_eq_saved, hunsaved]
        rfl
      | ok tree => exact store_compileWith_of_unsaved hunsaved
    rw [hstore] at hoffers hsaves hnests
    -- siblings change no object, so those that are asked are there in the end
    obtain ⟨hkeeps, hbreaks⟩ := Compile.safe_extended_keeps done r outcome p'
      ⟨rfl, fun _ he => Array.mem_toList_iff.mp he⟩ hextend
    have hquiet : r.store.OffersQuietly := fun ref object self panic hfound =>
      hoffers ref object self panic (by rwa [Store.object?, hkeeps.objects])
    obtain ⟨tree, rfl, -⟩ := hbreaks.resolve_left (not_not_intro hquiet)
    obtain ⟨packed, q', hpacks, hstays, hcompiled⟩ :=
      compileWith_of_unsaved hunsaved hsaves hnests
    have htold : r.errors.toList ⊆ q'.errors.toList := fun e he =>
      Array.mem_toList_iff.mpr (hstays.errors e (Array.mem_toList_iff.mpr (hkeeps.errors e he)))
    exact ⟨tree, p', packed, q', rfl, hpacks, htold, hcompiled⟩

/-- **A compile with tasks, in which callbacks panic.** It gives an output if there is more than one
root entry to instantiate and to finish, and of the objects that are there in the end none panics
when it is asked for siblings or saved, and the saved forms nest finitely. -/
theorem compileWith_fenced (hparallel : c.config.parallel = true)
    (hopened : ∀ before p, (Compile.opened dir d).run (c.settingIn dir)
      { Progress.initial s with files := source.toList } = (.ok before, p) → 1 < before.size)
    (hlive : ∀ made p, (Compile.live dir d).run (c.settingIn dir)
      { Progress.initial s with files := source.toList } = (.ok made, p) → 1 < made.size)
    (hoffers : (c.compileWith s dir source d).store.OffersQuietly)
    (hsaves : (c.compileWith s dir source d).store.SavesQuietly)
    (hnests : (c.compileWith s dir source d).store.SavesFinitely) :
    ∃ o finished, (c.compileWith s dir source d).outcome = .ok (o, finished) ∧
      c.Fences s dir source d o := by
  have hfan : (c.settingIn dir).fanOut = some { batch := c.config.maxBatch } := by
    show c.config.fanOut = _
    rw [Config.fanOut, if_pos hparallel]
  -- the tree is opened, and its root entries are instantiated and finished by tasks
  have hopen : Safe (Progress.Told []) False (c.settingIn dir) (fun _ => True)
      (Compile.opened dir d) := Compile.safe_opened dir d
  obtain ⟨before, p, hbefore, -, -⟩ := hopen.exists_ok id
    ⟨fun _ _ _ => trivial, fun _ he => absurd he List.not_mem_nil⟩
  have hwf := Compile.always_opened dir d _ before p hbefore
  obtain ⟨made, q, hmade, -, hfenced, hwf'⟩ :=
    Compile.exists_instantiated hfan hwf (hopened before p hbefore) p
  have hlarge := hlive made q (run_bind_ok.mpr ⟨before, p, hbefore, hmade⟩)
  obtain ⟨done, r, hdone, htold, hfenced', -⟩ := Compile.exists_finished hfan hwf' hlarge q
  obtain ⟨tree, p', packed, q', hextend, hpacks, htold', hcompiled⟩ :=
    compileWith_of_finished hbefore hmade hdone hoffers hsaves hnests
  -- diagnostics stay, so those of the tasks are among those of the output
  refine ⟨Compile.outputOf (packed, Compile.requestsPacking p.store.handles before) q',
    q'.finished.toList, by rw [hcompiled], before, p, made, q, done, r, tree, p', _, hbefore,
    hmade, hfenced.mono (List.Subset.trans htold htold'), ?_, hdone, hfenced'.mono htold',
    hextend, hpacks.stripFlags q'.store.handles, ?_⟩
  · exact fun worker name v p q crash hrun => Compile.spares_of_panic hrun
  · rw [Compile.files_outputOf]
    rfl

/-! ### Things that panic -/

/-- An object that is saved without dictionaries, lists and objects, if it is saved. -/
def savesPlainly : Option σ → Bool
  | none => true
  | some object =>
    match ObjectClass.saveToCache object with
    | .ok d => d.entries.all fun entry => isPlain entry.2
    | .error (.error _) => true
    | .error (.panic _) => false

theorem savesQuietly_of_plainly (h : s.objects.all savesPlainly = true) : s.SavesQuietly := by
  intro ref object panic hfound hpanics
  have hplain := Store.of_all h hfound
  rw [savesPlainly, hpanics] at hplain
  cases hplain

theorem savesFinitely_of_plainly (h : s.objects.all savesPlainly = true) :
    s.SavesFinitely := by
  refine Store.savesFinitely_of_lifeless fun id object d hfound hsaves => ?_
  have hplain := Store.of_all h hfound
  rw [savesPlainly, hsaves] at hplain
  exact lifeless_of_plain hplain

theorem offersQuietly_items (s : Store Item) : s.OffersQuietly := by
  intro ref item self panic _
  cases item <;> exact nofun

/-- A thing that panics in a phase, if there is one of that name. -/
def panickingThing (phase : String) : Value := .dict (Dict.ofValues
  [(Reserved.type, .string Thing.typeName), ("n", .number .zero), ("panic", .string phase)])

/-- Things that panic when they are finished, when they are loaded, and never. -/
def panicking : Dict Value := Dict.ofValues
  [("finishing", panickingThing Thing.Phase.finish.name),
    ("loading", panickingThing Thing.Phase.load.name),
    ("quiet", panickingThing "")]

omit [ObjectClass σ] in
theorem many_of_run {action : Action σ (Dict Value)} {setting : Setting σ} {p : Progress σ}
    (h : ((action.run setting p).1.toOption.all fun d => decide (1 < d.size)) = true) :
    ∀ d q, action.run setting p = (.ok d, q) → 1 < d.size := by
  intro d q hrun
  rw [hrun] at h
  exact of_decide_eq_true h

/-- Tasks compile them. -/
theorem fenced_panicking : ∃ o finished,
    (bare.compileWith .empty ⟨"/"⟩ none panicking).outcome = .ok (o, finished) ∧
    bare.Fences .empty ⟨"/"⟩ none panicking o := by
  have hplain : (bare.compileWith .empty ⟨"/"⟩ none panicking).store.objects.all
      savesPlainly = true := by decide +kernel
  exact compileWith_fenced rfl (many_of_run (by decide +kernel)) (many_of_run (by decide +kernel))
    (offersQuietly_items _) (savesQuietly_of_plainly hplain) (savesFinitely_of_plainly hplain)

/-- A compiler that has one worker. -/
def alone : Compiler MemoryFiles Item := { bare with config := bare.config.withParallel false }

/-- The panic that ended a compile. -/
def panicOf (compiled : Compiled φ σ) : Option Panic :=
  match compiled.outcome with
  | .ok _ => none
  | .error panic => some panic

omit [FileSystem φ] [ObjectClass σ] in
theorem outcome_of_panicOf {compiled : Compiled φ σ} {panic : Panic}
    (h : panicOf compiled = some panic) : compiled.outcome = .error panic := by
  unfold panicOf at h
  split at h
  · cases h
  · next hpanic => rw [hpanic, Option.some.inj h]

/-- **A panic ends the compile** where one worker compiles the source, where there is one root entry
only, and where it arises when an object is saved. -/
theorem not_output_panicking :
    (alone.compileDict .empty panicking ⟨"/"⟩).outcome = .error ⟨"told to panic"⟩ ∧
    (bare.compileDict .empty (Dict.ofValues
      [("loading", panickingThing Thing.Phase.load.name)]) ⟨"/"⟩).outcome =
        .error ⟨"told to panic"⟩ ∧
    (bare.compileDict .empty (Dict.ofValues [("quiet", panickingThing ""),
      ("saving", panickingThing Thing.Phase.save.name)]) ⟨"/"⟩).outcome =
        .error ⟨"told to panic"⟩ := by
  refine ⟨outcome_of_panicOf ?_, outcome_of_panicOf ?_, outcome_of_panicOf ?_⟩ <;> decide +kernel

end Compiler

end ResourceTree
