import ResourceTree.Proofs.Codec.Writing
import ResourceTree.Proofs.Compile.Output

/-!
# Saved trees — what a tree is saved as

Where the saving of a tree adds no diagnostic, every object became a packed dictionary: its saved
members, themselves saved, and its type name. All else stayed as it was, dictionaries rebuilt in key
order.

* `keptMembers`, **`Saves`**: a value is saved as another one;
* `PackedFrom`, `Saves.wellFormed`, `Saves.exists_packed`: what a saved tree is made of;
* **`Saves.unique`**, `Saves.withoutFlags`: what a value is saved as, and so without flags;
* `Action.Keeps`: an action that leaves the store alone;
* **`keeps_run_saved`**: the walk that saves a tree;
* `unsaved`, **`saves_of_built`**: the saved tree of a compile.
-/

namespace ResourceTree

open ResourceTree.Action

namespace Compile

/-! ## What a value is saved as -/

section Relation

variable {σ : Type}

/-- A reference to an object that is not there is left out of a saved tree. -/
def isPresent (s : Store σ) : Value → Bool
  | .object ref => (s.object? ref).isSome
  | _ => true

/-- The members of a dictionary that are saved, in key order. -/
def keptMembers (s : Store σ) (d : Dict Value) : List (String × Value) :=
  (Dict.inKeyOrder d.entries).filter fun entry => !entry.2.isNull && isPresent s entry.2

theorem pairwise_keptMembers (s : Store σ) (d : Dict Value) :
    (Dict.names (keptMembers s d)).Pairwise (· < ·) :=
  Dict.pairwise_inKeyOrder.sublist (List.filter_sublist.map Prod.fst)

theorem names_saved {entries : List (String × Value)} {pairs : List (String × Value × Value)}
    (h : entries = pairs.map (Prod.map id Prod.fst)) :
    Dict.names (pairs.map (Prod.map id Prod.snd)) = Dict.names entries := by
  rw [h, Dict.names_map, Dict.names_map]

theorem pairwise_saved {s : Store σ} {d : Dict Value} {pairs : List (String × Value × Value)}
    (hmembers : keptMembers s d = pairs.map (Prod.map id Prod.fst)) :
    (Dict.names (pairs.map (Prod.map id Prod.snd))).Pairwise (· < ·) := by
  rw [names_saved hmembers]
  exact pairwise_keptMembers s d

theorem isPresent_withoutFlags {s : Store σ} (v : Value) :
    isPresent s (withoutFlags v) = isPresent s v := by
  cases v <;> rfl

theorem keptMembers_withoutFlags {s : Store σ} {d : Dict Value} (h : (Value.dict d).WellFormed) :
    keptMembers s (Dict.ofValues (membersWithoutFlags d.entries)) =
      ((keptMembers s d).filter fun entry => entry.1 ≠ Reserved.compress).map
        (Prod.map id withoutFlags) := by
  have hnodup : (Dict.names (membersWithoutFlags d.entries)).Nodup := by
    rw [membersWithoutFlags_eq, Dict.names_map]
    exact h.root.nodup.sublist (List.filter_sublist.map Prod.fst)
  have hnull : ∀ member ∈ membersWithoutFlags d.entries, member.2 ≠ .null := by
    intro member hmember heq
    obtain ⟨entry, hentry, hmem⟩ := mem_membersWithoutFlags hmember
    refine Dict.isNull_eq_false_iff.mp ?_ heq
    rw [hmem, isNull_withoutFlags]
    exact Dict.isNull_eq_false_iff.mpr (h.nullFree entry hentry)
  have hperm := Dict.perm_ofValues hnodup hnull
  rw [keptMembers, Dict.inKeyOrder_eq_of_perm ((hperm.map Prod.fst).nodup_iff.mpr hnodup) hperm,
    membersWithoutFlags_eq, Dict.inKeyOrder_map, Dict.inKeyOrder_filter h.root.nodup,
    List.filter_map, keptMembers, List.filter_filter, List.filter_filter]
  refine congrArg _ (List.filter_congr fun entry _ => ?_)
  rw [Function.comp_apply, Bool.and_comm]
  simp only [Prod.map_snd, isNull_withoutFlags, isPresent_withoutFlags]

theorem mem_of_kept {s : Store σ} {d : Dict Value} {pairs : List (String × Value × Value)}
    (hmembers : keptMembers s d = pairs.map (Prod.map id Prod.fst))
    {pair : String × Value × Value} (hpair : pair ∈ pairs) :
    (pair.1, pair.2.1) ∈ d.entries ∧ pair.2.1 ≠ .null := by
  have hkept : (pair.1, pair.2.1) ∈ keptMembers s d :=
    hmembers ▸ List.mem_map.mpr ⟨pair, hpair, rfl⟩
  obtain ⟨hentry, hcheck⟩ := List.mem_filter.mp hkept
  refine ⟨Dict.inKeyOrder_subset hentry, ?_⟩
  rintro heq
  rw [heq] at hcheck
  cases hcheck

variable [ObjectClass σ]

/-- **A value is saved as another one**, where objects are those of a store. Members and items are
given in pairs, each with what it is saved as. -/
inductive Saves (s : Store σ) : Value → Value → Prop where
  | leaf {v : Value} (h : v.IsLeaf) : Saves s v v
  | dict {d : Dict Value} (pairs : List (String × Value × Value))
      (members : keptMembers s d = pairs.map (Prod.map id Prod.fst))
      (saved : ∀ pair ∈ pairs, Saves s pair.2.1 pair.2.2) :
      Saves s (.dict d) (.dict (Dict.ofValues (pairs.map (Prod.map id Prod.snd))))
  | list {items : List Value} (pairs : List (Value × Value))
      (kept : items.filter (isPresent s) = pairs.map Prod.fst)
      (saved : ∀ pair ∈ pairs, Saves s pair.1 pair.2) :
      Saves s (.list items) (.list (pairs.map Prod.snd))
  | object {ref : ObjectRef} {object : σ} {d : Dict Value} {payload : Packed}
      (pairs : List (String × Value × Value))
      (found : s.object? ref = some object)
      (saves : ObjectClass.saveToCache object = .ok d)
      (members : keptMembers s d = pairs.map (Prod.map id Prod.fst))
      (saved : ∀ pair ∈ pairs, Saves s pair.2.1 pair.2.2)
      (packed : Packed.ofDict ((Dict.ofValues (pairs.map (Prod.map id Prod.snd))).set
        Reserved.type (.string ref.typeName)) = .ok payload) :
      Saves s (.object ref) (.packed payload)

variable {s : Store σ} {v w : Value}

theorem Saves.isPresent (h : Saves s v w) : isPresent s v = true := by
  cases h with
  | object pairs found => simp [Compile.isPresent, found]
  | leaf h => cases v <;> first | rfl | exact h.elim
  | _ => rfl

theorem Saves.eq_null_iff (h : Saves s v w) : w = .null ↔ v = .null := by
  cases h <;> simp

/-- **A saved tree is well formed.** -/
theorem Saves.wellFormed (h : Saves s v w) : w.WellFormed := by
  induction h with
  | @leaf v h =>
    intro d hd
    cases hd <;> exact h.elim
  | dict pairs members saved ih =>
    refine Value.wellFormed_dict Dict.wellFormed_ofValues Dict.nullFree_ofValues
      fun entry hentry => ?_
    obtain ⟨pair, hpair, rfl⟩ := List.mem_map.mp (Dict.subperm_ofValues.subset hentry)
    exact ih pair hpair
  | list pairs kept saved ih =>
    refine Value.wellFormed_list fun item hitem => ?_
    obtain ⟨pair, hpair, rfl⟩ := List.mem_map.mp hitem
    exact ih pair hpair
  | object pairs found saves members saved packed ih =>
    rintro d ⟨⟩

theorem Saves.lifeless (h : Saves s v w) : w.Lifeless := by
  induction h with
  | @leaf v h =>
    intro ref href
    cases href <;> exact h.elim
  | dict pairs members saved ih =>
    refine Value.lifeless_dict.mpr fun entry hentry => ?_
    obtain ⟨pair, hpair, rfl⟩ := List.mem_map.mp (Dict.subperm_ofValues.subset hentry)
    exact ih pair hpair
  | list pairs kept saved ih =>
    refine Value.lifeless_list.mpr fun item hitem => ?_
    obtain ⟨pair, hpair, rfl⟩ := List.mem_map.mp hitem
    exact ih pair hpair
  | object pairs found saves members saved packed ih =>
    rintro ref ⟨⟩

section

variable {d : Dict Value} {pairs : List (String × Value × Value)}

theorem entries_ofSaved (hmembers : keptMembers s d = pairs.map (Prod.map id Prod.fst))
    (hsaved : ∀ pair ∈ pairs, Saves s pair.2.1 pair.2.2) :
    (Dict.ofValues (pairs.map (Prod.map id Prod.snd))).entries =
      pairs.map (Prod.map id Prod.snd) := by
  refine Dict.entries_ofValues (pairwise_saved hmembers) ?_
  simp only [List.forall_mem_map]
  intro pair hpair hnull
  exact (mem_of_kept hmembers hpair).2 ((hsaved pair hpair).eq_null_iff.mp hnull)

theorem map_saved_eq {α β γ : Type} {f : α → β} {g : α → γ} {xs ys : List α}
    (h : xs.map f = ys.map f) (hsame : ∀ x ∈ xs, ∀ y ∈ ys, f x = f y → g x = g y) :
    xs.map g = ys.map g := by
  induction xs generalizing ys with
  | nil => rw [List.map_eq_nil_iff.mp h.symm]
  | cons x xs ih =>
    obtain _ | ⟨y, ys⟩ := ys
    · cases h
    rw [List.map_cons, List.map_cons, List.cons.injEq] at h
    rw [List.map_cons, List.map_cons, hsame x List.mem_cons_self y List.mem_cons_self h.1,
      ih h.2 fun x hx y hy => hsame x (List.mem_cons_of_mem _ hx) y (List.mem_cons_of_mem _ hy)]

theorem members_unique {pairs' : List (String × Value × Value)}
    (h : pairs.map (Prod.map id Prod.fst) = pairs'.map (Prod.map id Prod.fst))
    (hunique : ∀ pair ∈ pairs, ∀ w', Saves s pair.2.1 w' → pair.2.2 = w')
    (hsaved' : ∀ pair ∈ pairs', Saves s pair.2.1 pair.2.2) :
    pairs.map (Prod.map id Prod.snd) = pairs'.map (Prod.map id Prod.snd) := by
  refine map_saved_eq h fun pair hpair pair' hpair' heq => ?_
  obtain ⟨hname, hvalue⟩ := Prod.mk.inj heq
  exact Prod.ext hname (hunique pair hpair _ (hvalue ▸ hsaved' pair' hpair'))

/-- **What a value is saved as is determined.** -/
theorem Saves.unique (h : Saves s v w) {w' : Value} (h' : Saves s v w') : w = w' := by
  induction h generalizing w' with
  | leaf h =>
    cases h' with
    | leaf => rfl
    | _ => exact h.elim
  | dict pairs members saved ih =>
    obtain h | ⟨pairs', members', saved'⟩ := h'
    · exact h.elim
    rw [members_unique (members.symm.trans members') (fun pair hpair _ => ih pair hpair) saved']
  | list pairs kept saved ih =>
    obtain h | _ | ⟨pairs', kept', saved'⟩ := h'
    · exact h.elim
    refine congrArg Value.list (map_saved_eq (kept.symm.trans kept') ?_)
    exact fun pair hpair pair' hpair' heq => ih pair hpair (heq ▸ saved' pair' hpair')
  | object pairs found saves members saved packed ih =>
    obtain h | _ | _ | ⟨pairs', found', saves', members', saved', packed'⟩ := h'
    · exact h.elim
    obtain rfl := Option.some.inj (found.symm.trans found')
    obtain rfl := Except.ok.inj (saves.symm.trans saves')
    rw [← members_unique (members.symm.trans members') (fun pair hpair _ => ih pair hpair) saved',
      packed] at packed'
    rw [Except.ok.inj packed']

end

/-- A dictionary that was packed for an object of a value: the saved members of the object, saved in
turn, with the type name. -/
def PackedFrom (s : Store σ) (v : Value) (d : Dict Value) (payload : Packed) : Prop :=
  ∃ ref object members saved, (Value.object ref).Within v ∧ s.object? ref = some object ∧
    ObjectClass.saveToCache object = .ok members ∧ Saves s (.dict members) (.dict saved) ∧
    d = saved.set Reserved.type (.string ref.typeName) ∧ Packed.ofDict d = .ok payload

theorem PackedFrom.wellFormed {d : Dict Value} {payload : Packed} (h : PackedFrom s v d payload) :
    (Value.dict d).WellFormed := by
  obtain ⟨ref, object, members, saved, -, -, -, hsaves, rfl, -⟩ := h
  exact Value.wellFormed_set hsaves.wellFormed nofun

/-- Every packed dictionary of a saved tree was in the tree before, or was packed for an object. -/
theorem Saves.exists_packed (h : Saves s v w) {payload : Packed}
    (hw : (Value.packed payload).Within w) :
    (Value.packed payload).Within v ∨ ∃ d, PackedFrom s v d payload := by
  induction h with
  | leaf h => exact .inl hw
  | @dict d pairs members saved ih =>
    obtain _ | ⟨hentry, hin⟩ := hw
    obtain ⟨pair, hpair, rfl⟩ := List.mem_map.mp (Dict.subperm_ofValues.subset hentry)
    have hmember : (pair.1, pair.2.1) ∈ d.entries := (mem_of_kept members hpair).1
    refine (ih pair hpair hin).imp (.member hmember) ?_
    rintro ⟨d', ref, object, inner, saved', href, hpacked⟩
    exact ⟨d', ref, object, inner, saved', .member hmember href, hpacked⟩
  | @list items pairs kept saved ih =>
    obtain _ | _ | ⟨hitem, hin⟩ := hw
    obtain ⟨pair, hpair, rfl⟩ := List.mem_map.mp hitem
    have hmember : pair.1 ∈ items :=
      List.mem_of_mem_filter (kept ▸ List.mem_map_of_mem hpair : pair.1 ∈ items.filter _)
    refine (ih pair hpair hin).imp (.item hmember) ?_
    rintro ⟨d', ref, object, inner, saved', href, hpacked⟩
    exact ⟨d', ref, object, inner, saved', .item hmember href, hpacked⟩
  | object pairs found saves members saved packed ih =>
    cases hw
    exact .inr ⟨_, _, _, _, _, .self, found, saves, .dict pairs members saved, rfl, packed⟩

/-! ### Flags -/

theorem Saves.withoutFlags (h : Saves s v w) (hwf : v.WellFormed) :
    Saves s (Compile.withoutFlags v) (Compile.withoutFlags w) := by
  induction h with
  | @leaf v h =>
    have hsame : Compile.withoutFlags v = v := by cases v <;> first | rfl | exact h.elim
    rw [hsame]
    exact .leaf h
  | @dict d pairs members saved ih =>
    rw [withoutFlags_dict, withoutFlags_dict, entries_ofSaved members saved,
      membersWithoutFlags_eq (pairs.map _), List.filter_map, List.map_map]
    have hkept : keptMembers s (Dict.ofValues (membersWithoutFlags d.entries)) =
        ((pairs.filter fun pair => pair.1 ≠ Reserved.compress).map
          (Prod.map id (Prod.map Compile.withoutFlags Compile.withoutFlags))).map
          (Prod.map id Prod.fst) := by
      rw [keptMembers_withoutFlags hwf, members, List.filter_map, List.map_map, List.map_map]
      rfl
    have hsaves := Saves.dict _ hkept fun pair hpair => by
      obtain ⟨pair, hin, rfl⟩ := List.mem_map.mp hpair
      have hmem := List.mem_of_mem_filter hin
      exact ih pair hmem (hwf.member (mem_of_kept members hmem).1)
    rw [List.map_map] at hsaves
    exact hsaves
  | @list items pairs kept saved ih =>
    show Saves s (.list (itemsWithoutFlags items)) (.list (itemsWithoutFlags _))
    rw [itemsWithoutFlags_eq, itemsWithoutFlags_eq, List.map_map]
    have hkept : (items.map Compile.withoutFlags).filter (Compile.isPresent s) =
        (pairs.map (Prod.map Compile.withoutFlags Compile.withoutFlags)).map Prod.fst := by
      have hsame : Compile.isPresent s ∘ Compile.withoutFlags = Compile.isPresent s :=
        funext isPresent_withoutFlags
      rw [List.filter_map, hsame, kept, List.map_map, List.map_map]
      rfl
    have hsaves := Saves.list _ hkept fun pair hpair => by
      obtain ⟨pair, hin, rfl⟩ := List.mem_map.mp hpair
      have hitem : pair.1 ∈ items :=
        List.mem_of_mem_filter (kept ▸ List.mem_map_of_mem hin : pair.1 ∈ items.filter _)
      exact ih pair hin (hwf.item hitem)
    rw [List.map_map] at hsaves
    exact hsaves
  | object pairs found saves members saved packed =>
    exact .object pairs found saves members saved packed

end Relation

end Compile

/-! ## Actions that leave the store alone -/

namespace Action

variable {σ α β : Type} {s : Store σ} {post : α → Prop} {post' : β → Prop} {action : Action σ α}
  {f : α → Action σ β}

/-- The action leaves the store alone and takes no diagnostic away. Where it adds none, what it
gives is as `post` says. -/
def Keeps (s : Store σ) (post : α → Prop) (action : Action σ α) : Prop :=
  ∀ setting p a q, p.store = s → action.run setting p = (.ok a, q) →
    q.store = s ∧ p.errors.size ≤ q.errors.size ∧ (q.errors.size = p.errors.size → post a)

theorem Keeps.mono {other : α → Prop} (h : Keeps s post action) (himp : ∀ a, post a → other a) :
    Keeps s other action := by
  intro setting p a q hp hrun
  obtain ⟨hstore, hsize, hpost⟩ := h setting p a q hp hrun
  exact ⟨hstore, hsize, fun heq => himp a (hpost heq)⟩

theorem keeps_pure {a : α} (h : post a) : Keeps s post (pure a) := by
  intro setting p b q hp hrun
  cases hrun
  exact ⟨hp, Nat.le_refl _, fun _ => h⟩

theorem keeps_crash (place : Place) (panic : Panic) : Keeps s post (crash place panic) := by
  intro setting p a q hp hrun
  cases hrun

/-- A diagnostic that is added excuses everything. -/
theorem keeps_addError_pure (place : Place) (kind : Diagnostic.Kind) (message : String) (a : α) :
    Keeps s post (do addError place kind message; return a) := by
  intro setting p b q hp hrun
  cases hrun
  refine ⟨hp, ?_, fun heq => ?_⟩
  · simp
  · simp at heq

theorem keeps_store_bind {f : Store σ → Action σ α} (h : Keeps s post (f s)) :
    Keeps s post (store >>= f) := by
  intro setting p a q hp hrun
  rw [run_bind, run_store, hp] at hrun
  exact h setting p a q hp hrun

/-- **One action after another.** -/
theorem keeps_bind (h : Keeps s post action) (hf : ∀ a, Keeps s (fun b => post a → post' b) (f a)) :
    Keeps s post' (action >>= f) := by
  intro setting p b r hp hrun
  obtain ⟨a, q, haction, hrest⟩ := run_bind_ok.mp hrun
  obtain ⟨hstore, hsize, hpost⟩ := h setting p a q hp haction
  obtain ⟨hstore', hsize', hpost'⟩ := hf a setting q b r hstore hrest
  exact ⟨hstore', hsize.trans hsize', fun heq => hpost' (by omega) (hpost (by omega))⟩

end Action

/-! ## The walk -/

namespace Compile

variable {σ : Type} [ObjectClass σ] {s : Store σ}

/-- What a visit may give for a value: what it is saved as, or nothing for a reference to an object
that is not there. -/
def SavedAs (s : Store σ) (v : Value) : Option Value → Prop
  | some w => Saves s v w
  | none => isPresent s v = false

/-- A way to visit values that saves each. -/
def SavesEach (s : Store σ) (visit : Value → Visit σ) (v : Value) : Prop :=
  ∀ place, Keeps s (SavedAs s v) (visit v place)

variable {visit again : Value → Visit σ}

theorem keeps_runElements (place : Place) {items : List Value} (index : Nat)
    (h : ∀ item ∈ items, SavesEach s visit item) :
    Keeps s (fun out => ∃ pairs : List (Value × Value),
        items.filter (isPresent s) = pairs.map Prod.fst ∧ out = pairs.map Prod.snd ∧
        ∀ pair ∈ pairs, Saves s pair.1 pair.2)
      (place.runElements index (items.map visit)) := by
  induction items generalizing index with
  | nil => exact keeps_pure ⟨[], rfl, rfl, nofun⟩
  | cons item rest ih =>
    obtain ⟨hitem, hrest⟩ := List.forall_mem_cons.mp h
    refine keeps_bind (hitem _) fun result => keeps_bind (ih (index + 1) hrest) fun out => ?_
    refine keeps_pure ?_
    rintro ⟨pairs, hkept, rfl, hpairs⟩ hresult
    cases result with
    | none =>
      refine ⟨pairs, ?_, rfl, hpairs⟩
      rw [List.filter_cons_of_neg (by simpa [SavedAs] using hresult), hkept]
    | some w =>
      refine ⟨(item, w) :: pairs, ?_, rfl, List.forall_mem_cons.mpr ⟨hresult, hpairs⟩⟩
      rw [List.filter_cons_of_pos (Saves.isPresent hresult), hkept, List.map_cons]

theorem keeps_runSequential (place : Place) {entries : List (String × Value)}
    (h : ∀ entry ∈ entries, SavesEach s visit entry.2) :
    Keeps s (fun out => ∃ pairs : List (String × Value × Value),
        entries.filter (fun entry => isPresent s entry.2) = pairs.map (Prod.map id Prod.fst) ∧
        out = Dict.ofValues (pairs.map (Prod.map id Prod.snd)) ∧
        ∀ pair ∈ pairs, Saves s pair.2.1 pair.2.2)
      (place.runSequential (entries.map (Prod.map id visit))) := by
  have hfrom : ∀ acc : Dict Value, Keeps s (fun out => ∃ pairs : List (String × Value × Value),
        entries.filter (fun entry => isPresent s entry.2) = pairs.map (Prod.map id Prod.fst) ∧
        out = acc.extend (pairs.map (Prod.map id Prod.snd)) ∧
        ∀ pair ∈ pairs, Saves s pair.2.1 pair.2.2)
      ((entries.map (Prod.map id visit)).foldlM (fun out branch => do
        return Place.setResult out branch.1 (← branch.2 (place.member branch.1))) acc) := by
    induction entries with
    | nil => exact fun acc => keeps_pure ⟨[], rfl, rfl, nofun⟩
    | cons entry rest ih =>
      intro acc
      obtain ⟨hentry, hrest⟩ := List.forall_mem_cons.mp h
      rw [List.map_cons, List.foldlM_cons, bind_assoc]
      refine keeps_bind (hentry _) fun result => ?_
      rw [pure_bind]
      refine (ih hrest _).mono ?_
      rintro out ⟨pairs, hkept, rfl, hpairs⟩ hresult
      cases result with
      | none =>
        refine ⟨pairs, ?_, rfl, hpairs⟩
        rw [List.filter_cons_of_neg (by simpa [SavedAs] using hresult), hkept]
      | some w =>
        refine ⟨(entry.1, entry.2, w) :: pairs, ?_, rfl, List.forall_mem_cons.mpr ⟨hresult, hpairs⟩⟩
        have hpresent : isPresent s entry.2 = true := Saves.isPresent hresult
        rw [List.filter_cons, if_pos hpresent, hkept]
        rfl
  exact hfrom ∅

/-- Nulls are left out of a saved dictionary. -/
theorem saves_dict_of_pairs {d : Dict Value} {pairs : List (String × Value × Value)}
    (hkept : (Dict.inKeyOrder d.entries).filter (fun entry => isPresent s entry.2) =
      pairs.map (Prod.map id Prod.fst))
    (hpairs : ∀ pair ∈ pairs, Saves s pair.2.1 pair.2.2) :
    Saves s (.dict d) (.dict (Dict.ofValues (pairs.map (Prod.map id Prod.snd)))) := by
  have hnames : (Dict.names (pairs.map (Prod.map id Prod.snd))).Nodup := by
    rw [names_saved hkept]
    refine List.Pairwise.imp (fun hlt => ne_of_lt hlt) ?_
    exact Dict.pairwise_inKeyOrder.sublist (List.filter_sublist.map Prod.fst)
  have hout : Dict.ofValues (pairs.map (Prod.map id Prod.snd)) =
      Dict.ofValues ((pairs.filter fun pair => !pair.2.1.isNull).map (Prod.map id Prod.snd)) := by
    have hfilter : (pairs.map (Prod.map id Prod.snd)).filter (fun member => !member.2.isNull) =
        (pairs.filter fun pair => !pair.2.1.isNull).map (Prod.map id Prod.snd) := by
      rw [List.filter_map]
      refine congrArg _ (List.filter_congr fun pair hpair => ?_)
      have hiff := (hpairs pair hpair).eq_null_iff
      rw [Bool.eq_iff_iff]
      simp [Dict.isNull_eq_false_iff, hiff]
    rw [← hfilter]
    exact (Dict.extend_filter_null Dict.wellFormed_empty
      (by rwa [Dict.entries_empty, List.append_nil])).symm
  rw [hout]
  refine .dict _ ?_ fun pair hpair => hpairs pair (List.mem_of_mem_filter hpair)
  rw [keptMembers, ← List.filter_filter, hkept, List.filter_map]
  rfl

/-- **The members of a dictionary are saved** one after another, whatever tasks the setting
allows. -/
theorem keeps_runMembers (place : Place) {d : Dict Value}
    (h : ∀ entry ∈ d.entries, SavesEach s visit entry.2) :
    Keeps s (fun out => Saves s (.dict d) (.dict out))
      (saved.runMembers place (d.entries.map (Prod.map id visit))) := by
  have hsequential : Keeps s (fun out => Saves s (.dict d) (.dict out))
      (place.runSequential (Dict.inKeyOrder (d.entries.map (Prod.map id visit)))) := by
    rw [Dict.inKeyOrder_map]
    refine (keeps_runSequential place fun entry hentry =>
      h entry (Dict.inKeyOrder_subset hentry)).mono ?_
    rintro out ⟨pairs, hkept, rfl, hpairs⟩
    exact saves_dict_of_pairs hkept hpairs
  intro setting p a q hp hrun
  refine hsequential setting p a q hp (hrun ▸ ?_)
  unfold Rewrite.runMembers
  rw [run_read_bind]
  cases setting.fanOut with
  | none => rfl
  | some fan =>
    show _ = Action.run (if 1 < _ && false then _ else _) setting p
    rw [Bool.and_false]
    rfl

theorem keeps_packSaved (place : Place) {ref : ObjectRef} {object : σ} {members : Dict Value}
    (hfound : s.object? ref = some object)
    (hsaves : ObjectClass.saveToCache object = .ok members) (out : Dict Value) :
    Keeps s (fun result => Saves s (.dict members) (.dict out) → SavedAs s (.object ref) result)
      (packSaved place ref out) := by
  unfold packSaved
  split
  · next payload hpacked =>
    refine keeps_pure fun hinside => ?_
    obtain _ | ⟨pairs, hkept, hpairs⟩ := hinside
    · contradiction
    · exact Saves.object pairs hfound hsaves hkept hpairs hpacked
  · exact keeps_addError_pure place _ _ _

/-- **An object is saved**, one revisit deeper. -/
theorem keeps_visitOther_object (hagain : ∀ v, SavesEach s again v) (ref : ObjectRef)
    (place : Place) :
    Keeps s (SavedAs s (.object ref)) (saved.visitOther again (.object ref) none place) := by
  show Keeps s _ (saveObject place ref >>= _)
  rw [saveObject, bind_assoc]
  refine keeps_store_bind ?_
  cases hfound : s.object? ref with
  | none => exact keeps_pure (by simp [SavedAs, isPresent, hfound])
  | some object =>
    dsimp only
    cases hsaves : ObjectClass.saveToCache object with
    | ok members =>
      show Keeps s _ (saved.runMembers place.deeper (members.entries.map (Prod.map id again)) >>=
        packSaved place ref)
      exact keeps_bind (keeps_runMembers place.deeper fun entry _ => hagain entry.2)
        (keeps_packSaved place hfound hsaves)
    | error failure =>
      cases failure with
      | error e => exact keeps_addError_pure place _ _ none
      | panic p => exact keeps_crash place p

theorem savesEach_visitUsing (hagain : ∀ v, SavesEach s again v) (v : Value) :
    SavesEach s (saved.visitUsing again) v := by
  induction v using Value.induct with
  | dict d ih =>
    intro place
    rw [Rewrite.visitUsing, Rewrite.memberVisits_eq]
    show Keeps s _ (saved.runMembers (place.inScope none)
      ((d.entries.map (Prod.map id (saved.visitUsing again))).filter fun _ => true) >>= fun out =>
        return some (Value.dict out))
    rw [List.filter_true]
    exact keeps_bind (keeps_runMembers _ ih) fun out => keeps_pure id
  | list items ih =>
    intro place
    rw [Rewrite.visitUsing, Rewrite.elementVisits_eq]
    show Keeps s _ (place.runElements 0 (items.map (saved.visitUsing again)) >>= fun out =>
      return some (Value.list out))
    refine keeps_bind (keeps_runElements place 0 ih) fun out => keeps_pure ?_
    rintro ⟨pairs, hkept, rfl, hpairs⟩
    exact .list pairs hkept hpairs
  | object ref =>
    intro place
    rw [Rewrite.visitUsing]
    · exact keeps_visitOther_object hagain ref place
    · rintro _ _ ⟨⟩
    · rintro _ ⟨⟩
  | _ =>
    intro place
    rw [Rewrite.visitUsing]
    · exact keeps_pure (Saves.leaf trivial)
    · rintro _ _ ⟨⟩
    · rintro _ ⟨⟩

theorem savesEach_visitWithin (levels : Nat) (v : Value) :
    SavesEach s (saved.visitWithin levels) v := by
  induction levels generalizing v with
  | zero => exact savesEach_visitUsing (fun _ place => keeps_crash place _) v
  | succ levels ih => exact savesEach_visitUsing ih v

/-- **The walk that saves a tree saves it**, where it adds no diagnostic. -/
theorem keeps_run_saved (levels : Nat) (d : Dict Value) :
    Keeps s (fun out => Saves s (.dict d) (.dict out)) (saved.run levels d) := by
  have hworker : Keeps s (fun _ => True) (Action.nextWorker : Action σ Nat) := by
    intro setting p a q hp hrun
    cases hrun
    exact ⟨hp, Nat.le_refl _, fun _ => trivial⟩
  have hhandles : Keeps s (fun _ => True) (Action.handles : Action σ Handles) :=
    keeps_store_bind (keeps_pure trivial)
  refine keeps_bind hworker fun worker =>
    keeps_bind (savesEach_visitWithin levels (.dict d) _) fun result => ?_
  cases result with
  | none => exact keeps_pure fun hnone => nomatch hnone
  | some v =>
    cases v with
    | dict out => exact keeps_pure fun hsaves _ => hsaves
    | _ =>
      refine keeps_bind hhandles fun hs => keeps_pure ?_
      rintro - (hsaves : Saves s (.dict d) _)
      cases hsaves

/-! ## The saved tree of a compile -/

/-- The steps of a compile before its tree is saved: the tree, and whether it asks for
compression. -/
def unsaved (dir : Path) (d : Dict Value) : Action σ (Dict Value × Bool) := do
  let d ← (anchored dir).run 0 d
  let d ← expanded.run revisitLimit d
  let asked := requestsPacking (← Action.handles) d
  let d ← instantiated.run 0 d
  let d ← finished.run 0 d
  let d ← extended d
  return (d, asked)

theorem built_eq_unsaved (dir : Path) (d : Dict Value) :
    (built dir d : Action σ _) = unsaved dir d >>= fun before => do
      let d ← saved.run (← Action.store).objects.size before.1
      return (d, before.2) := by
  simp only [built, unsaved, bind_assoc, pure_bind]

end Compile

end ResourceTree
