import ResourceTree.Proofs.Compile.Saving
import ResourceTree.Proofs.Walk.Congruence

/-!
# Savable values — where saving adds no diagnostic

What `Saves` relates is what the walk gives: where all objects in a value can be saved, in turn, the
visit of the value adds no diagnostic and gives what the value is saved as, as long as there is a
level for each object inside another one.

* `Action.Calm`: an action that comes to something and changes nothing;
* `Savable`; `savable_dict`, `savable_list`, `savable_object`: one value from its parts;
* **`run_of_savable`**, **`exists_savable`**: what is saved, and that it is.
-/

namespace ResourceTree

namespace Action

variable {σ α β : Type} {s : Store σ} {action : Action σ α} {f : α → Action σ β}

/-- The action comes to something, and changes nothing. -/
def Calm (s : Store σ) (action : Action σ α) : Prop :=
  ∀ setting p, p.store = s → ∃ a, action.run setting p = (.ok a, p)

theorem calm_pure {a : α} : Calm s (pure a) := fun _ _ _ => ⟨a, rfl⟩

theorem calm_store_bind {f : Store σ → Action σ α} (h : Calm s (f s)) : Calm s (store >>= f) := by
  intro setting p hp
  rw [run_bind, run_store, hp]
  exact h setting p hp

theorem Calm.bind (h : Calm s action) (hf : ∀ a, (∃ setting p, p.store = s ∧
    action.run setting p = (.ok a, p)) → Calm s (f a)) : Calm s (action >>= f) := by
  intro setting p hp
  obtain ⟨a, ha⟩ := h setting p hp
  obtain ⟨b, hb⟩ := hf a ⟨setting, p, hp, ha⟩ setting p hp
  exact ⟨b, by rw [run_bind, ha]; exact hb⟩

end Action

namespace Compile

open ResourceTree.Action

variable {σ : Type} [ObjectClass σ] {s : Store σ} {v w : Value} {levels : Nat}

/-- The visit that saves a value adds no diagnostic, with so many levels left. -/
def Savable (s : Store σ) (levels : Nat) (v : Value) : Prop :=
  ∀ place, Calm s (saved.visitWithin levels v place)

/-! ## Parts -/

theorem savable_leaf (h : v.IsLeaf) : Savable s levels v := by
  intro place
  rw [Rewrite.visitWithin_other (by rintro d rfl; exact h) (by rintro items rfl; exact h)]
  cases v with
  | object ref => exact h.elim
  | _ => exact calm_pure

theorem savable_absent (h : isPresent s v = false) : Savable s levels v := by
  intro place
  cases v with
  | object ref =>
    have hnone : s.object? ref = none :=
      Option.isNone_iff_eq_none.mp (Option.isSome_eq_false_iff.mp h)
    rw [Rewrite.visitWithin_other (by simp) (by simp)]
    show Calm s (saveObject place ref >>= _)
    rw [saveObject, bind_assoc]
    refine calm_store_bind ?_
    rw [hnone]
    exact calm_pure
  | _ => cases h

omit [ObjectClass σ] in
theorem calm_runElements {visit : Value → Visit σ} {place : Place} {items : List Value}
    (index : Nat) (h : ∀ item ∈ items, ∀ place, Calm s (visit item place)) :
    Calm s (place.runElements index (items.map visit)) := by
  induction items generalizing index with
  | nil => exact calm_pure
  | cons item rest ih =>
    obtain ⟨hitem, hrest⟩ := List.forall_mem_cons.mp h
    exact (hitem _).bind fun _ _ => (ih (index + 1) hrest).bind fun _ _ => calm_pure

omit [ObjectClass σ] in
theorem calm_runSequential {visit : Value → Visit σ} {place : Place}
    {entries : List (String × Value)}
    (h : ∀ entry ∈ entries, ∀ place, Calm s (visit entry.2 place)) :
    Calm s (place.runSequential (entries.map (Prod.map id visit))) := by
  have hfrom : ∀ acc : Dict Value, Calm s ((entries.map (Prod.map id visit)).foldlM
      (fun out branch => do
        return Place.setResult out branch.1 (← branch.2 (place.member branch.1))) acc) := by
    induction entries with
    | nil => exact fun acc => calm_pure
    | cons entry rest ih =>
      intro acc
      obtain ⟨hentry, hrest⟩ := List.forall_mem_cons.mp h
      rw [List.map_cons, List.foldlM_cons, bind_assoc]
      refine (hentry _).bind fun result _ => ?_
      rw [pure_bind]
      exact ih hrest _
  exact hfrom ∅

/-- The members of a dictionary are visited, those that are left out among them. -/
theorem calm_runMembers {place : Place} {d : Dict Value}
    (h : ∀ entry ∈ keptMembers s d, Savable s levels entry.2) :
    Calm s (saved.runMembers place (d.entries.map (Prod.map id (saved.visitWithin levels)))) := by
  rw [Rewrite.runMembers_sequential rfl, Dict.inKeyOrder_map]
  refine calm_runSequential fun entry hentry => ?_
  by_cases hpresent : isPresent s entry.2
  · by_cases hnull : entry.2 = .null
    · exact hnull ▸ savable_leaf trivial
    · have hkept : (!entry.2.isNull && isPresent s entry.2) = true := by
        rw [Dict.isNull_eq_false_iff.mpr hnull, hpresent]
        rfl
      exact h entry (List.mem_filter.mpr ⟨hentry, hkept⟩)
  · exact savable_absent (Bool.eq_false_iff.mpr hpresent)

theorem savable_dict {d : Dict Value} (h : ∀ entry ∈ keptMembers s d, Savable s levels entry.2) :
    Savable s levels (.dict d) := by
  intro place
  rw [Rewrite.visitWithin_dict]
  show Calm s (saved.runMembers (place.inScope none)
    ((d.entries.map (Prod.map id (saved.visitWithin levels))).filter fun _ => true) >>= _)
  rw [List.filter_true]
  exact (calm_runMembers h).bind fun _ _ => calm_pure

theorem savable_list {items : List Value} (h : ∀ item ∈ items, Savable s levels item) :
    Savable s levels (.list items) := by
  intro place
  rw [Rewrite.visitWithin_items]
  show Calm s (place.runElements 0 (items.map (saved.visitWithin levels)) >>= _)
  exact (calm_runElements 0 h).bind fun _ _ => calm_pure

theorem savable_object {ref : ObjectRef} {object : σ} {members : Dict Value}
    (h : Saves s (.object ref) w) (hfound : s.object? ref = some object)
    (hsave : ObjectClass.saveToCache object = .ok members)
    (hmembers : ∀ entry ∈ keptMembers s members, Savable s levels entry.2) :
    Savable s (levels + 1) (.object ref) := by
  intro place
  rw [Rewrite.visitWithin_other (by simp) (by simp)]
  show Calm s (saveObject place ref >>= _)
  rw [saveObject, bind_assoc]
  refine calm_store_bind ?_
  rw [hfound]
  dsimp only
  rw [hsave]
  show Calm s (saved.runMembers place.deeper
    (members.entries.map (Prod.map id (saved.visitWithin levels))) >>= packSaved place ref)
  refine (calm_runMembers hmembers).bind ?_
  rintro out ⟨setting, p, hp, hrun⟩
  obtain ⟨-, -, hsaves⟩ := keeps_runMembers place.deeper
    (fun entry _ => savesEach_visitWithin levels entry.2) setting p out p hp hrun
  cases h with
  | leaf hleaf => exact hleaf.elim
  | @object _ object' members' payload pairs found saves kept inside packed =>
    obtain rfl := Option.some.inj (hfound.symm.trans found)
    obtain rfl := Except.ok.inj (hsave.symm.trans saves)
    -- what the members come to is what was packed
    obtain rfl := Value.dict.inj ((hsaves rfl).unique (.dict pairs kept inside))
    unfold packSaved
    rw [packed]
    exact calm_pure

/-! ## Whole values -/

/-- **What is saved**: a value whose saving adds no diagnostic is saved as `Saves` says, and nothing
else happens. -/
theorem run_of_savable {setting : Setting σ} {p : Progress σ} (h : Saves s v w)
    (hv : Savable s levels v) (place : Place) (hp : p.store = s) :
    (saved.visitWithin levels v place).run setting p = (.ok (some w), p) := by
  obtain ⟨result, hrun⟩ := hv place setting p hp
  obtain ⟨-, -, hsaved⟩ := savesEach_visitWithin levels v place setting p result p hp hrun
  cases result with
  | none =>
    have habsent : isPresent s v = false := hsaved rfl
    exact nomatch h.isPresent.symm.trans habsent
  | some w' => rw [hrun, h.unique (hsaved rfl)]

theorem exists_savable_all {vs : List Value}
    (h : ∀ v ∈ vs, ∃ n, ∀ levels, n ≤ levels → Savable s levels v) :
    ∃ n, ∀ levels, n ≤ levels → ∀ v ∈ vs, Savable s levels v := by
  induction vs with
  | nil => exact ⟨0, fun _ _ => nofun⟩
  | cons v vs ih =>
    obtain ⟨⟨n, hv⟩, hvs⟩ := List.forall_mem_cons.mp h
    obtain ⟨m, hvs⟩ := ih hvs
    refine ⟨max n m, fun levels hle => List.forall_mem_cons.mpr ⟨?_, ?_⟩⟩
    · exact hv levels (le_trans (le_max_left n m) hle)
    · exact hvs levels (le_trans (le_max_right n m) hle)

/-- **Whatever `Saves` relates is saved**, if there are enough levels. -/
theorem exists_savable (h : Saves s v w) : ∃ n, ∀ levels, n ≤ levels → Savable s levels v := by
  induction h with
  | leaf h => exact ⟨0, fun levels _ => savable_leaf h⟩
  | @dict d pairs members saved ih =>
    obtain ⟨n, hn⟩ := exists_savable_all (List.forall_mem_map.mpr ih :
      ∀ v ∈ pairs.map fun pair => pair.2.1, _)
    refine ⟨n, fun levels hle => savable_dict fun entry hentry => ?_⟩
    rw [members] at hentry
    obtain ⟨pair, hpair, rfl⟩ := List.mem_map.mp hentry
    exact hn levels hle _ (List.mem_map.mpr ⟨pair, hpair, rfl⟩)
  | @list items pairs kept saved ih =>
    obtain ⟨n, hn⟩ := exists_savable_all (List.forall_mem_map.mpr ih :
      ∀ v ∈ pairs.map fun pair => pair.1, _)
    refine ⟨n, fun levels hle => savable_list fun item hitem => ?_⟩
    by_cases hpresent : isPresent s item
    · have hkept : item ∈ pairs.map fun pair => pair.1 :=
        kept ▸ List.mem_filter.mpr ⟨hitem, hpresent⟩
      exact hn levels hle item hkept
    · exact savable_absent (Bool.eq_false_iff.mpr hpresent)
  | @object ref object d payload pairs found saves members saved packed ih =>
    obtain ⟨n, hn⟩ := exists_savable_all (List.forall_mem_map.mpr ih :
      ∀ v ∈ pairs.map fun pair => pair.2.1, _)
    refine ⟨n + 1, fun levels hle => ?_⟩
    obtain ⟨levels, rfl⟩ := Nat.exists_eq_add_of_le' (Nat.le_trans (Nat.le_add_left 1 n) hle)
    refine savable_object (.object pairs found saves members saved packed) found saves ?_
    intro entry hentry
    rw [members] at hentry
    obtain ⟨pair, hpair, rfl⟩ := List.mem_map.mp hentry
    exact hn levels (Nat.le_of_succ_le_succ hle) _ (List.mem_map.mpr ⟨pair, hpair, rfl⟩)

end Compile

end ResourceTree
