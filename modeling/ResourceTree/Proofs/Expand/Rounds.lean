import Mathlib.Logic.Function.Iterate
import ResourceTree.Proofs.Expand.FanOut
import ResourceTree.Proofs.Expand.Layering
import ResourceTree.Proofs.Expand.Limit
import ResourceTree.Proofs.Value.Conversion

/-!
# Rounds — a dictionary laid over others until nothing leads on

An expansion lays a dictionary over its imports and its template, and does so again with what comes
of it, one revisit deeper each time. So what is visited in the end is a dictionary after so many
rounds, and its members are visited where the rounds ended.

* `Handles.Orderly`, `Place.Orderly`: all that can be found is well formed; `wellFormed_laidOver`;
* **`afterRounds`**: a dictionary after so many rounds; `afterRounds_of_settled`,
  `wellFormed_afterRounds`;
* **`run_afterRounds`**: what an expansion of it comes to;
* `Vanishes`, **`run_members_of_settled`**: the members of a dictionary where nothing leads on.
-/

namespace ResourceTree

namespace Value

variable {v : Value} {d : Dict Value}

theorem eq_dict_of_asDict? (h : v.asDict? = some d) : v = .dict d := by
  cases v with
  | dict other => exact congrArg Value.dict (Option.some.inj h)
  | _ => cases h

theorem plainDict?_of_convertPlain (h : v.convertPlain .dict = some (.dict d)) :
    v.plainDict? = some d := by
  cases v <;> simp_all [convertPlain, kind, plainDict?]

theorem wellFormed_plainDict? (hv : v.WellFormed) (h : v.plainDict? = some d) :
    (Value.dict d).WellFormed := by
  cases v with
  | dict other => exact Option.some.inj h ▸ hv
  | binary bytes =>
    cases hdecode : Dict.decode bytes with
    | error fault => simp [plainDict?, hdecode, Except.toOption] at h
    | ok read =>
      obtain rfl : read = d := by simpa [plainDict?, hdecode, Except.toOption] using h
      exact (Dict.encode_of_decode hdecode).1
  | packed payload =>
    cases hunpack : payload.unpack with
    | error fault => simp [plainDict?, hunpack, Except.toOption] at h
    | ok read =>
      obtain rfl : read = d := by simpa [plainDict?, hunpack, Except.toOption] using h
      exact Packed.wellFormed_of_unpack hunpack
  | _ => cases h

end Value

/-! ## What is found -/

namespace Handles

/-- Every value that a handle shows is well formed. -/
def Orderly (hs : Handles) : Prop := ∀ h, (hs.value h).WellFormed

theorem orderly_empty : empty.Orderly := by
  intro h
  have hown : ∀ g : Handle, empty.ownValue g = .null := by
    intro g
    cases hslot : g.slot <;> simp [ownValue, slot?, empty, hslot]
  rw [value, hown]
  exact Value.wellFormed_leaf (by simp) (by simp)

variable {hs : Handles} {d : Dict Value} {v w : Value} {path : String}

section Orderly

variable (hhs : hs.Orderly)

include hhs

theorem wellFormed_plain? (hv : v.WellFormed) (h : hs.plain? v = some w) : w.WellFormed := by
  unfold plain? at h
  split at h
  · split at h
    · cases h
    · exact Option.some.inj h ▸ hhs _
  · exact Option.some.inj h ▸ hv

theorem wellFormed_toDict? (hv : v.WellFormed) (h : hs.toDict? v = some d) :
    (Value.dict d).WellFormed := by
  obtain ⟨converted, hconvert, hdict⟩ := Option.bind_eq_some_iff.mp h
  obtain rfl := Value.eq_dict_of_asDict? hdict
  unfold convert at hconvert
  split_ifs at hconvert
  · exact Option.some.inj hconvert ▸ hv
  · obtain ⟨plain, hplain, hread⟩ := Option.bind_eq_some_iff.mp hconvert
    exact Value.wellFormed_plainDict? (wellFormed_plain? hhs hv hplain)
      (Value.plainDict?_of_convertPlain hread)

theorem wellFormed_child? (hv : v.WellFormed) {step : Step} (h : hs.child? v step = some w) :
    w.WellFormed := by
  cases step with
  | member name =>
    change hs.namedChild? v name = some w at h
    unfold namedChild? at h
    split at h
    · next d hplain =>
      exact (wellFormed_plain? hhs hv hplain).member (Dict.mem_of_get? h)
    · next payload hplain =>
      obtain ⟨d, hunpack, hget⟩ := Option.bind_eq_some_iff.mp h
      have hd : (Value.packed payload).plainDict? = some d := hunpack
      exact (Value.wellFormed_plainDict? (wellFormed_plain? hhs hv hplain) hd).member
        (Dict.mem_of_get? hget)
    · cases h
  | element index =>
    change hs.indexedChild? v index = some w at h
    unfold indexedChild? at h
    split at h
    · next items hplain =>
      exact (wellFormed_plain? hhs hv hplain).item (List.mem_of_getElem? h)
    · cases h

theorem wellFormed_descend {steps : List Step} (hv : v.WellFormed)
    (h : hs.descend v steps = some w) : w.WellFormed := by
  unfold descend at h
  induction steps generalizing v with
  | nil => exact Option.some.inj h ▸ hv
  | cons step steps ih =>
    obtain ⟨next, hnext, hrest⟩ := Option.bind_eq_some_iff.mp h
    exact ih (wellFormed_child? hhs hv hnext) hrest

theorem wellFormed_findPath (hd : (Value.dict d).WellFormed) (h : hs.findPath d path = some v) :
    v.WellFormed := by
  unfold findPath at h
  split at h
  · exact wellFormed_descend hhs hd h
  · cases h

end Orderly

end Handles

/-- Every scope around a place is well formed. -/
def Place.Orderly (place : Place) : Prop := ∀ scope ∈ place.scopes, (Value.dict scope).WellFormed

namespace Compile

open ResourceTree.Action Account

variable {σ : Type} {setting : Setting σ} {hs : Handles} {place : Place} {d e f : Dict Value}
  {v : Value} {fs : List (Dict Value)} {name : String}

section Orderly

variable (hhs : hs.Orderly)

include hhs

theorem wellFormed_ownValues {values : Dict Value} (hd : (Value.dict d).WellFormed)
    (h : ownValues hs d = some values) : (Value.dict values).WellFormed := by
  obtain ⟨v, hget, hvalues⟩ := Option.bind_eq_some_iff.mp h
  exact Handles.wellFormed_toDict? hhs (hd.member (Dict.mem_of_get? hget)) hvalues

theorem wellFormed_layer (hd : (Value.dict d).WellFormed) (he : (Value.dict e).WellFormed) :
    (Value.dict (layer hs d e)).WellFormed := by
  unfold layer
  dsimp only
  split
  · next hlower hupper =>
    exact Value.wellFormed_set (wellFormed_merged hd he)
      (wellFormed_merged (wellFormed_ownValues hhs hd hlower) (wellFormed_ownValues hhs he hupper))
  · exact wellFormed_merged hd he

theorem wellFormed_layers (hd : (Value.dict d).WellFormed)
    (hfs : ∀ f ∈ fs, (Value.dict f).WellFormed) : (Value.dict (layers hs fs d)).WellFormed := by
  induction fs generalizing d with
  | nil => exact hd
  | cons f fs ih =>
    obtain ⟨hf, hfs⟩ := List.forall_mem_cons.mp hfs
    exact ih (wellFormed_layer hhs hf hd) hfs

theorem wellFormed_overImports (hd : (Value.dict d).WellFormed) :
    (Value.dict (overImports setting hs d)).WellFormed := by
  unfold overImports
  split
  · exact hd
  · refine wellFormed_layers hhs (wellFormed_erase hd) fun f hf => ?_
    obtain ⟨target, -, hf⟩ := List.mem_filterMap.mp hf
    exact wellFormed_imported? hf

variable (hplace : place.Orderly)

include hplace

theorem wellFormed_findTemplate {under : Dict Value} (hd : (Value.dict d).WellFormed)
    (h : findTemplate hs place d name = some under) : (Value.dict under).WellFormed := by
  obtain ⟨v, hfound, hunder⟩ := Option.bind_eq_some_iff.mp h
  refine Handles.wellFormed_toDict? hhs ?_ hunder
  rcases Option.or_eq_some_iff.mp hfound with hown | ⟨-, hlookup⟩
  · obtain ⟨values, hvalues, hpath⟩ := Option.bind_eq_some_iff.mp hown
    exact Handles.wellFormed_findPath hhs (wellFormed_ownValues hhs hd hvalues) hpath
  · obtain ⟨scope, hscope, hpath⟩ := List.exists_of_findSome?_eq_some hlookup
    exact Handles.wellFormed_findPath hhs (hplace scope hscope) hpath

theorem wellFormed_overTemplate (hd : (Value.dict d).WellFormed) :
    (Value.dict (overTemplate hs place d)).WellFormed := by
  have herased : (Value.dict (d.erase Reserved.template)).WellFormed := wellFormed_erase hd
  unfold overTemplate
  split
  · exact hd
  · split
    · next hfound =>
      obtain ⟨text, -, hfound⟩ := Option.bind_eq_some_iff.mp hfound
      exact wellFormed_layer hhs (wellFormed_findTemplate hhs hplace herased hfound) herased
    · exact herased

/-- **What a well-formed dictionary comes to is well formed.** -/
theorem wellFormed_laidOver (hd : (Value.dict d).WellFormed) :
    (Value.dict (laidOver setting hs place d)).WellFormed :=
  wellFormed_overTemplate hhs hplace (wellFormed_overImports hhs hd)

end Orderly

/-! ## Rounds -/

/-- **A dictionary after so many rounds**, in each of which it is laid over others. -/
def afterRounds (setting : Setting σ) (hs : Handles) (place : Place) (rounds : Nat)
    (d : Dict Value) : Dict Value := (laidOver setting hs place)^[rounds] d

theorem get?_of_settled (h : hasDirective d = false) :
    d.get? Reserved.import_ = none ∧ d.get? Reserved.template = none := by
  simpa [hasDirective, Dict.contains] using h

/-- Where nothing leads on, a round changes nothing. -/
theorem afterRounds_of_settled (h : hasDirective d = false) (rounds : Nat) :
    afterRounds setting hs place rounds d = d := by
  obtain ⟨himport, htemplate⟩ := get?_of_settled h
  have hfixed : laidOver setting hs place d = d := by
    unfold laidOver overImports
    rw [himport]
    dsimp only
    unfold overTemplate
    rw [htemplate]
  exact Function.iterate_fixed hfixed rounds

theorem afterRounds_one :
    afterRounds setting hs place 1 d = laidOver setting hs place d := rfl

theorem afterRounds_succ (rounds : Nat) : afterRounds setting hs place (rounds + 1) d =
    laidOver setting hs place (afterRounds setting hs place rounds d) :=
  Function.iterate_succ_apply' _ _ _

theorem afterRounds_add (m n : Nat) : afterRounds setting hs place (m + n) d =
    afterRounds setting hs place m (afterRounds setting hs place n d) :=
  Function.iterate_add_apply _ m n d

theorem wellFormed_afterRounds (hhs : hs.Orderly) (hplace : place.Orderly)
    (hd : (Value.dict d).WellFormed) (rounds : Nat) :
    (Value.dict (afterRounds setting hs place rounds d)).WellFormed := by
  induction rounds with
  | zero => exact hd
  | succ rounds ih => exact afterRounds_succ rounds ▸ wellFormed_laidOver hhs hplace ih

/-- **What an expansion comes to** after so many rounds, if that many may lie inside one another:
what comes of the dictionary that is left then, as deep as there was a round to make. -/
theorem run_afterRounds (setting : Setting σ) (hs : Handles) (place : Place) {k rounds : Nat}
    (hk : k + rounds ≤ revisitLimit) :
    ∃ made ≤ rounds, ∀ p : Progress σ, p.store.handles.value = hs.value → ∃ added,
      (expansion (.dict d) (place.atNesting k)).run setting p =
        (expansion (.dict (afterRounds setting hs place rounds d))
          (place.atNesting (k + made))).run setting (p.notes added) := by
  induction rounds generalizing d k with
  | zero => exact ⟨0, Nat.le_refl _, fun p _ => ⟨[], rfl⟩⟩
  | succ rounds ih =>
    cases hd : hasDirective d with
    | false =>
      rw [afterRounds_of_settled hd]
      exact ⟨0, Nat.zero_le _, fun p _ => ⟨[], rfl⟩⟩
    | true =>
      have hlt : (place.atNesting k).nesting < revisitLimit := by
        show k < revisitLimit
        omega
      obtain ⟨made, hmade, hrest⟩ := ih (d := laidOver setting hs place d) (k := k + 1) (by omega)
      refine ⟨made + 1, by omega, fun p hp => ?_⟩
      obtain ⟨laid, hlaid⟩ : ∃ laid, (expandDict (place.atNesting k) d).run setting p =
          (.ok (laidOver setting hs place d), p.notes laid) := yields_expandDict _ d p hp
      obtain ⟨added, hrun⟩ := hrest (p.notes laid) (by rwa [Progress.store_notes])
      refine ⟨laid ++ added, ?_⟩
      rw [expansion_directive hd hlt, run_bind, hlaid, Progress.notes_append, ← Nat.add_assoc,
        Nat.add_right_comm]
      exact hrun

/-! ## Members -/

/-- **The visit of a value leaves nothing**, which a diagnostic says, or it leaves null. -/
def Vanishes (setting : Setting σ) (p : Progress σ) (v : Value) (place : Place) : Prop :=
  ∃ result q, (expansion v place).run setting p = (.ok result, q) ∧
    (result = none ∧ p.errors.size < q.errors.size ∨ result = some .null)

/-- A visit that leaves nothing adds a diagnostic. -/
theorem vanishes_of_none {p q : Progress σ}
    (hrun : (expansion v place).run setting p = (.ok none, q)) : Vanishes setting p v place := by
  obtain ⟨hgrows, hquiet⟩ := quiet_expansion v place p _ q hrun
  refine ⟨none, q, hrun, .inl ⟨rfl, lt_of_le_of_ne hgrows fun hsize => ?_⟩⟩
  obtain ⟨_, hnone, -⟩ := hquiet none rfl hsize.symm
  cases hnone

/-- **The members of a dictionary where nothing leads on.** Each is there in the end, unless the
visit of its value leaves nothing by itself. -/
theorem run_members_of_settled (setting : Setting σ) (place : Place) {p : Progress σ}
    (hends : p.store.handles.ChainsEnd) (hd : hasDirective d = false) (hwf : d.WellFormed) :
    ∃ out q,
      (expansion (.dict d) place).run setting p = (.ok (some (.dict out)), q) ∧
      ∀ name v, d.get? name = some v → name ≠ Reserved.values → out.contains name = true ∨
        Vanishes setting p v ((place.inScope (ownValues p.store.handles d)).member name) := by
  have hsettled : ∀ entry : String × Value, Settled setting p (expansion entry.2
      ((place.inScope (ownValues p.store.handles d)).member entry.1)) :=
    fun entry => settled_expansion _ _
  choose r m hgives using hsettled
  have hvisit : (seen p).Gives setting (fun result => ∃ out, result = some (.dict out) ∧
      Place.Collects (fun entry result => result.map Value.detached = r entry) ∅
        (Dict.inKeyOrder (openMembers d)) out) (expansion (.dict d) place)
      ((Dict.inKeyOrder (openMembers d)).map m).sum := by
    rw [expansion_members hd]
    refine gives_handles_bind fun p' hp => ?_
    rw [ownValues_congr hp.1]
    refine (gives_runMembers m fun entry _ worker => ?_).bind_pure fun out hout => ⟨out, rfl, hout⟩
    rw [expansion_withWorker]
    exact hgives entry setting.fanOut
  obtain ⟨_, q, hrun, ⟨out, rfl, visited, hvisited, hresults, rfl⟩, -⟩ :=
    hvisit p ⟨rfl, hends, rfl⟩
  refine ⟨_, q, hrun, fun name v hget hname => ?_⟩
  have hentry : (name, v) ∈ Dict.inKeyOrder (openMembers d) := by
    have hmem : (name, v) ∈ openMembers d :=
      List.mem_filter.mpr ⟨Dict.mem_of_get? hget, by simpa using hname⟩
    exact (Dict.inKeyOrder_perm (hwf.nodup.sublist (List.filter_sublist.map Prod.fst))).symm.subset
      hmem
  obtain ⟨member, hmember, heq⟩ := List.mem_map.mp (hvisited ▸ hentry)
  have hkept := Place.get?_collect (hvisited ▸ Dict.pairwise_inKeyOrder) hmember
  have hresult := hresults member hmember
  rw [heq] at hkept hresult
  -- what the visit leaves by itself differs at most in slots
  obtain ⟨result, q', hrun', hsame, -⟩ := hgives (name, v) setting.fanOut p ⟨rfl, hends, rfl⟩
  rw [← hsame] at hresult
  cases result with
  | none => exact .inr (vanishes_of_none hrun')
  | some w =>
    obtain ⟨w', hw', hdetached⟩ := Option.map_eq_some_iff.mp hresult
    by_cases hnull : w = .null
    · exact .inr ⟨_, q', hrun', .inr (congrArg some hnull)⟩
    · have hkeep : w'.isNull = false := by
        rw [← Value.isNull_detached, hdetached, Value.isNull_detached]
        exact Dict.isNull_eq_false_iff.mpr hnull
      rw [hw', Option.filter_some, hkeep] at hkept
      exact .inl (Option.isSome_iff_exists.mpr ⟨w', hkept⟩)

end Compile

end ResourceTree
