import Mathlib.Algebra.Order.Group.Multiset
import Mathlib.Data.Set.Semiring
import ResourceTree.Proofs.Expand.NormalForm

/-!
# Expansion by tasks and by one worker

The visits of the members of a dictionary have nothing to do with each other. What one of them
leaves behind for the others is a slot that holds null, which is not seen, and the handles of names,
which are told apart by their names. So it makes no difference in which order they are made.

* `Value.detached`, **`beq_of_detached`**: values but for the slots of their handles;
* `Notes`, `Account.seen`: diagnostics as a multiset, files and names of references as sets;
* `Settled`, **`settled_expansion`**: what a visit leaves and adds does not depend on what came
  before;
* **`run_expanded_fanOut`**: tasks in any order against one worker.
-/

namespace ResourceTree

open ResourceTree.Action

/-! ## Values without slots -/

namespace Value

mutual

/-- The value with its handles known by their names only, and dictionaries kept in one way. -/
def detached : Value → Value
  | .dict ⟨_, entries⟩ => .dict ⟨.flat, detachedMembers entries⟩
  | .list items => .list (detachedItems items)
  | .resource h => .resource (.detached h.name)
  | v => v

def detachedMembers : List (String × Value) → List (String × Value)
  | [] => []
  | (name, value) :: rest => (name, value.detached) :: detachedMembers rest

def detachedItems : List Value → List Value
  | [] => []
  | item :: rest => item.detached :: detachedItems rest

end

theorem detachedMembers_eq (entries : List (String × Value)) :
    detachedMembers entries = entries.map (Prod.map id detached) := by
  induction entries with
  | nil => rfl
  | cons entry rest ih => rw [detachedMembers, ih]; rfl

theorem detachedItems_eq (items : List Value) : detachedItems items = items.map detached := by
  induction items with
  | nil => rfl
  | cons item rest ih => rw [detachedItems, ih]; rfl

theorem detached_dict (d : Dict Value) :
    (Value.dict d).detached = .dict ⟨.flat, d.entries.map (Prod.map id detached)⟩ := by
  rw [← detachedMembers_eq]
  rfl

theorem detached_list (items : List Value) :
    (Value.list items).detached = .list (items.map detached) := by
  rw [← detachedItems_eq]
  rfl

@[simp] theorem kind_detached (v : Value) : v.detached.kind = v.kind := by
  cases v <;> rfl

@[simp] theorem isNull_detached (v : Value) : v.detached.isNull = v.isNull := by
  cases v <;> rfl

theorem kind_eq_of_detached {v w : Value} (h : v.detached = w.detached) : v.kind = w.kind := by
  rw [← kind_detached v, h, kind_detached]

theorem itemsEq_of_detached {items others : List Value}
    (ih : ∀ item ∈ items, ∀ w : Value, item.detached = w.detached → w.WellFormed →
      eqUsing Packed.beq item w = true)
    (h : items.map detached = others.map detached) (hothers : ∀ w ∈ others, w.WellFormed) :
    itemsEq Packed.beq items others = true := by
  rw [← List.forall₂_eq_eq_eq, List.forall₂_map_left_iff, List.forall₂_map_right_iff] at h
  refine itemsEq_iff_forall₂.mpr (forall₂_imp_mem (fun item hitem w hw heq => ?_) h)
  exact ih item hitem w heq (hothers w hw)

/-- **Values that are the same but for slots are equal.** -/
theorem beq_of_detached {v w : Value} (h : v.detached = w.detached) (hw : w.WellFormed) :
    (v == w) = true := by
  show eqUsing Packed.beq v w = true
  induction v using Value.induct generalizing w with
  | dict d ih =>
    cases w with
    | dict e =>
      rw [detached_dict, detached_dict] at h
      have hentries := congrArg Dict.entries (Value.dict.inj h)
      dsimp only at hentries
      rw [eqUsing_dict]
      refine Dict.eqUsing_iff.mpr ⟨?_, fun entry hentry => ?_⟩
      · simpa [Dict.size] using congrArg List.length hentries
      · have hmem : Prod.map id detached entry ∈ e.entries.map (Prod.map id detached) :=
          hentries ▸ List.mem_map_of_mem hentry
        obtain ⟨⟨name, other⟩, hother, heq⟩ := List.mem_map.mp hmem
        obtain ⟨rfl, hvalue⟩ := Prod.mk.inj heq
        exact ⟨other, (Dict.get?_eq_some_iff hw.root).mpr hother,
          ih entry hentry hvalue.symm (hw.member hother)⟩
    | _ => cases kind_eq_of_detached h
  | list items ih =>
    cases w with
    | list others =>
      rw [detached_list, detached_list] at h
      exact itemsEq_of_detached (fun item hitem w => ih item hitem) (Value.list.inj h)
        fun w hmem => hw.item hmem
    | _ => cases kind_eq_of_detached h
  | resource handle =>
    cases w with
    | resource other =>
      have hname : handle.name = other.name := by simpa [detached, Handle.detached] using h
      simp [eqUsing, hname]
    | _ => cases kind_eq_of_detached h
  | _ =>
    cases w <;> cases kind_eq_of_detached h
    cases h
    simp [eqUsing, Packed.beq_refl]

end Value

/-! ## What counts -/

/-- What is counted: the diagnostics with how often each was recorded, the files, and the names of
references. -/
abbrev Notes := Multiset Diagnostic × SetSemiring Path × SetSemiring String

/-- What a note adds. A file counts up to the way its path is written. -/
def Note.weight : Note → Notes
  | .diagnostic d => ({d}, 0, 0)
  | .file path => (0, Set.up {x | x.components = path.components}, 0)
  | .worker => 0

variable {σ : Type}

namespace Progress

/-- What was recorded so far. -/
def tally (p : Progress σ) : Notes :=
  (↑p.errors.toList, Set.up {x | x.Among p.files},
    Set.up {name | p.references.contains name = true})

theorem tally_note (p : Progress σ) (n : Note) : (p.note n).tally = p.tally + n.weight := by
  cases n with
  | diagnostic d =>
    refine Prod.ext ?_ (add_zero _).symm
    show ((p.errors.push d).toList : Multiset Diagnostic) = p.errors.toList + {d}
    rw [Array.toList_push]
    rfl
  | file path =>
    refine Prod.ext (add_zero _).symm (Prod.ext ?_ (add_zero _).symm)
    exact congrArg Set.up (Set.ext fun _ => Path.among_insertSorted_iff)
  | worker => exact (add_zero _).symm

theorem tally_notes (p : Progress σ) (added : List Note) :
    (p.notes added).tally = p.tally + (added.map Note.weight).sum := by
  induction added generalizing p with
  | nil => exact (add_zero _).symm
  | cons n rest ih =>
    rw [List.map_cons, List.sum_cons, ← add_assoc, ← tally_note]
    exact ih (p.note n)

/-- The name on the handle that stands for a name. -/
def label (p : Progress σ) (name : String) : String :=
  ((p.references.get? name).map (·.name)).getD name

@[simp] theorem label_notes (p : Progress σ) (added : List Note) :
    (p.notes added).label = p.label := by
  unfold label
  rw [references_notes]

end Progress

namespace Account

variable {α : Type} {setting : Setting σ} {start : Progress σ}

/-- Handles show what they showed in the beginning, and names are labelled as they were. -/
def seen (start : Progress σ) : Account σ Notes where
  Holds p := p.store.handles.value = start.store.handles.value ∧ p.store.handles.ChainsEnd ∧
    p.label = start.label
  tally := Progress.tally
  nextWorker _ _ h := ⟨h, rfl⟩

/-- What only takes notes comes to the same and adds the same, whenever it is done. -/
theorem exists_gives_of_noting {action : Action σ α} (h : Noting setting action) :
    ∃ a m, ∀ fanOut, (seen start).Gives (setting.withFanOut fanOut) (fun b => b = a) action m := by
  obtain ⟨result, hrun⟩ := h
  refine ⟨(result start.store.handles.value).1,
    ((result start.store.handles.value).2.map Note.weight).sum, fun fanOut p hp => ?_⟩
  refine ⟨_, _, hrun fanOut p, by rw [hp.1], ?_, ?_⟩
  · show (p.notes _).store.handles.value = _ ∧ (p.notes _).store.handles.ChainsEnd ∧
      (p.notes _).label = _
    rw [Progress.store_notes, Progress.label_notes]
    exact hp
  · show (p.notes _).tally = p.tally + _
    rw [Progress.tally_notes, hp.1]

theorem tally_of_referenced {p : Progress σ} {name : String} {h : Handle}
    (hget : p.references.get? name = some h) : p.tally = p.tally + (0, 0, Set.up {name}) := by
  refine Prod.ext (add_zero _).symm (Prod.ext (add_zero _).symm (congrArg Set.up ?_))
  refine (Set.union_eq_self_of_subset_right (Set.singleton_subset_iff.mpr ?_)).symm
  show (p.references.get? name).isSome = true
  rw [hget]
  rfl

/-- **A reference** is known by its label, and adds its name. -/
theorem gives_labelled_reference (name : String) : (seen start).Gives setting
    (fun h => h.name = start.label name) (reference name) (0, 0, Set.up {name}) := by
  rintro p ⟨hvalue, hends, hlabel⟩
  cases hget : p.references.get? name with
  | some h =>
    have hrun : (reference name).run setting p = (.ok h, p) := by
      unfold reference
      rw [run_modifyGet, hget]
    refine ⟨h, p, hrun, ?_, ⟨hvalue, hends, hlabel⟩, tally_of_referenced hget⟩
    rw [← hlabel, Progress.label, hget]
    rfl
  | none =>
    have hrun : (reference name).run setting p = (.ok (p.store.newHandle name .null).1,
        { p with
          store := (p.store.newHandle name .null).2
          references := p.references.insert name (p.store.newHandle name .null).1 }) := by
      unfold reference
      rw [run_modifyGet, hget]
    refine ⟨_, _, hrun, ?_, ⟨?_, ?_, ?_⟩, ?_⟩
    · rw [← hlabel, Progress.label, hget]
      rfl
    · exact (Handles.value_new_null hends).trans hvalue
    · exact Handles.chainsEnd_new hends
    · rw [← hlabel]
      funext other
      unfold Progress.label
      dsimp only
      rw [Dict.get?_insert]
      split_ifs with heq
      · rw [heq, hget]
        rfl
      · rfl
    · refine Prod.ext (add_zero _).symm (Prod.ext (add_zero _).symm (congrArg Set.up ?_))
      ext other
      show ((p.references.insert name _).get? other).isSome = true ↔
        (p.references.get? other).isSome = true ∨ other = name
      rw [Dict.get?_insert]
      split_ifs with heq <;> simp [heq]

end Account

namespace Compile

open Account

variable {setting : Setting σ} {start : Progress σ} {place : Place}

/-! ## Visits -/

/-- **What a visit leaves and adds is settled** by what handles show and how names are labelled in
the beginning: what came before makes no difference, nor do tasks. -/
def Settled (setting : Setting σ) (start : Progress σ) (action : Action σ (Option Value)) : Prop :=
  ∃ r m, ∀ fanOut, (seen start).Gives (setting.withFanOut fanOut)
    (fun result => result.map Value.detached = r) action m

theorem settled_pure (result : Option Value) : Settled setting start (pure result) :=
  ⟨_, 0, fun _ => gives_pure rfl⟩

theorem settled_handles_bind {f : Handles → Action σ (Option Value)}
    (hf : ∀ hs hs', hs.value = hs'.value → f hs = f hs')
    (h : Settled setting start (f start.store.handles)) :
    Settled setting start (handles >>= f) := by
  obtain ⟨r, m, h⟩ := h
  refine ⟨r, m, fun fanOut => gives_handles_bind fun p hp => ?_⟩
  rw [hf _ _ hp.1]
  exact h fanOut

theorem settled_noting_bind {α : Type} {action : Action σ α} {f : α → Action σ (Option Value)}
    (h : Noting setting action) (hf : ∀ a, Settled setting start (f a)) :
    Settled setting start (action >>= f) := by
  obtain ⟨a, m, h⟩ := exists_gives_of_noting h
  obtain ⟨r, n, hf⟩ := hf a
  exact ⟨r, m + n, fun fanOut => (h fanOut).bind fun _ hb => hb ▸ hf fanOut⟩

theorem settled_dropped (place : Place) (message : String) : Settled setting start
    (addError place .resolution message >>= fun _ => pure none) :=
  settled_noting_bind (noting_addError place _ message) fun _ => settled_pure none

/-- The dictionary of results that are known but for slots. -/
def knownDict (r : String × Value → Option Value) (entries : List (String × Value)) : Value :=
  .dict ⟨.flat, (entries.filterMap fun entry => (r entry).map (entry.1, ·)).filter fun entry =>
    !entry.2.isNull⟩

theorem detached_of_collects {r : String × Value → Option Value} {entries : List (String × Value)}
    {out : Dict Value} (hentries : (Dict.names entries).Pairwise (· < ·))
    (h : Place.Collects (fun entry result => result.map Value.detached = r entry) ∅ entries out) :
    (Value.dict out).detached = knownDict r entries := by
  obtain ⟨visited, rfl, hresults, rfl⟩ := h
  have hkept : (Place.kept visited).map (Prod.map id Value.detached) =
      (visited.map Prod.fst).filterMap fun entry => (r entry).map (entry.1, ·) := by
    rw [Place.kept, List.map_filterMap, List.filterMap_map]
    refine List.filterMap_congr fun member hmember => ?_
    have hresult := hresults member hmember
    show _ = (r member.1).map (member.1.1, ·)
    rw [← hresult]
    cases member.2 <;> rfl
  rw [Value.detached_dict, Place.entries_collect hentries, knownDict, ← hkept, List.filter_map]
  congr 3
  refine List.filter_congr fun entry _ => ?_
  show (!entry.2.isNull) = !entry.2.detached.isNull
  rw [Value.isNull_detached]

theorem settled_runMembers {entries : List (String × Value)}
    (h : ∀ entry ∈ entries, Settled setting start (expansion entry.2 (place.member entry.1))) :
    Settled setting start (expanded.runMembers place (entries.map (Prod.map id expansion)) >>=
      fun out => pure (some (.dict out))) := by
  choose! r m h using h
  refine ⟨some (knownDict r (Dict.inKeyOrder entries)), _, fun fanOut =>
    (gives_runMembers m fun entry hentry worker => ?_).bind_pure fun out hout =>
      congrArg some (detached_of_collects Dict.pairwise_inKeyOrder hout)⟩
  rw [expansion_withWorker]
  exact h entry hentry fanOut

theorem detached_of_lists {r : Value × Nat → Option Value} {elements : List (Value × Nat)}
    {out : List Value}
    (h : Place.Lists (fun element result => result.map Value.detached = r element) elements out) :
    (Value.list out).detached = .list (elements.filterMap r) := by
  obtain ⟨visited, rfl, hresults, rfl⟩ := h
  rw [Value.detached_list, List.map_filterMap, List.filterMap_map]
  exact congrArg Value.list (List.filterMap_congr hresults)

theorem settled_runElements {items : List Value}
    (h : ∀ item ∈ items, ∀ i, Settled setting start (expansion item (place.element i))) :
    Settled setting start (place.runElements 0 (items.map expansion) >>= fun out =>
      pure (some (.list out))) := by
  have h : ∀ element : Value × Nat, element.1 ∈ items →
      Settled setting start (expansion element.1 (place.element element.2)) :=
    fun element helement => h element.1 helement element.2
  choose! r m h using h
  exact ⟨some (.list ((items.zipIdx 0).filterMap r)), _, fun fanOut =>
    (gives_runElements m 0 fun element helement => h element helement fanOut).bind_pure
      fun out hout => congrArg some (detached_of_lists hout)⟩

/-- **Every visit of an expansion is settled.** -/
theorem settled_expansion (v : Value) (place : Place) :
    Settled setting start (expansion v place) := by
  induction v, place using induct_expansion with
  | dict d place ih ihdeeper =>
    cases hd : hasDirective d with
    | false =>
      rw [expansion_members hd]
      refine settled_handles_bind (fun hs hs' hsame => by rw [ownValues_congr hsame]) ?_
      exact settled_runMembers fun entry hentry =>
        ih entry (openMembers_subset hentry) ((place.inScope _).member entry.1) rfl
    | true =>
      rcases Nat.lt_or_ge place.nesting revisitLimit with hlt | hge
      · rw [expansion_directive hd hlt]
        exact settled_noting_bind (noting_expandDict place d) fun d' => ihdeeper hlt (.dict d')
      · rw [expansion_capped hd hge]
        exact settled_dropped place _
  | list items place ih =>
    rw [expansion_list]
    exact settled_runElements fun item hitem i => ih item hitem (place.element i) rfl
  | string text place ihdeeper =>
    cases hvalue : Reserved.afterMark? Reserved.valueMark text with
    | some path =>
      rcases Nat.lt_or_ge place.nesting revisitLimit with hlt | hge
      · rw [expansion_value hvalue hlt]
        refine settled_handles_bind (fun hs hs' hsame => by rw [Place.lookup_congr hsame]) ?_
        cases place.lookup start.store.handles path with
        | none => exact settled_dropped place _
        | some w => exact ihdeeper hlt w
      · rw [expansion_valueCapped hvalue hge]
        exact settled_dropped place _
    | none =>
      cases href : Reserved.afterMark? Reserved.refMark text with
      | some name =>
        rw [expansion_reference hvalue href]
        exact ⟨some (.resource (.detached (start.label name))), _, fun fanOut =>
          (gives_labelled_reference name).bind_pure fun h hname => by
            rw [← hname]
            rfl⟩
      | none =>
        rw [expansion_text hvalue href]
        exact settled_pure _
  | leaf v place hdict hlist hstring =>
    rw [expansion_leaf hdict hlist hstring]
    exact settled_pure _

/-! ## Runs -/

theorem settled_run (setting : Setting σ) (hends : start.store.handles.ChainsEnd) (d : Dict Value) :
    ∃ known m, ∀ fanOut, (seen start).Gives (setting.withFanOut fanOut)
      (fun out => (Value.dict out).detached = known) (expanded.run revisitLimit d) m := by
  obtain ⟨r, m, h⟩ : Settled setting start (expansion (.dict d) (Place.root 0)) :=
    settled_expansion _ _
  -- a run from the beginning shows that it is a dictionary that is left, if anything is
  obtain ⟨result, q, hrun, hresult, -⟩ := h setting.fanOut start ⟨rfl, hends, rfl⟩
  obtain ⟨_, _, hrun', hleaves, -⟩ := gives_expansion setting (.dict d) (Place.root 0) start trivial
  cases hrun.symm.trans hrun'
  have hdict : ∀ w, (some w).map Value.detached = r → ∃ out, w = .dict out := by
    rintro w rfl
    cases result with
    | none => cases hresult
    | some other =>
      obtain ⟨out, rfl⟩ := (hleaves other rfl).2.2 d rfl
      cases w with
      | dict out => exact ⟨out, rfl⟩
      | _ => cases Value.kind_eq_of_detached (Option.some.inj hresult)
  refine ⟨r.getD (Value.dict ∅).detached, m, fun fanOut => (gives_run (h fanOut) hdict).mono ?_⟩
  rintro out (rfl | ⟨rfl, rfl⟩)
  · rfl
  · rfl

/-- **Tasks in any order do what one worker does.** Wherever chains of replacements end, as they do
in every store that this program builds, and however many tasks run at a time, in whatever order
they come to run in each batch: from the same tree, files and progress both runs end without a
panic, the dictionaries are equal, the same files are recorded and the same names referenced, and
every diagnostic is recorded as often. -/
theorem run_expanded_fanOut (setting : Setting σ) (fan : FanOut) (p : Progress σ) (d : Dict Value)
    (hends : p.store.handles.ChainsEnd) :
    ∃ out q out' q',
      (expanded.run revisitLimit d).run (setting.withFanOut none) p = (.ok out, q) ∧
      (expanded.run revisitLimit d).run (setting.withFanOut (some fan)) p = (.ok out', q') ∧
      (out' == out) = true ∧
      (∀ path : Path, path.Among q'.files ↔ path.Among q.files) ∧
      (∀ name, q'.references.contains name = q.references.contains name) ∧
      q'.errors.toList.Perm q.errors.toList := by
  obtain ⟨known, m, hsettled⟩ := settled_run setting hends d
  obtain ⟨out, q, hrun, hout, -, htally⟩ := hsettled none p ⟨rfl, hends, rfl⟩
  obtain ⟨out', q', hrun', hout', -, htally'⟩ := hsettled (some fan) p ⟨rfl, hends, rfl⟩
  obtain ⟨_, _, hrun'', hleaves, -⟩ := gives_run_leaves (setting.withFanOut none) d p trivial
  cases hrun.symm.trans hrun''
  have hsame : q'.tally = q.tally := htally'.trans htally.symm
  refine ⟨out, q, out', q', hrun, hrun', ?_, fun path => ?_, fun name => ?_, ?_⟩
  · exact (Value.eqUsing_dict out' out).symm.trans
      (Value.beq_of_detached (hout'.trans hout.symm) hleaves.2)
  · exact Set.ext_iff.mp (congrArg (fun notes : Notes => notes.2.1.down) hsame) path
  · exact Bool.eq_iff_iff.mpr
      (Set.ext_iff.mp (congrArg (fun notes : Notes => notes.2.2.down) hsame) name)
  · exact Multiset.coe_eq_coe.mp (congrArg Prod.fst hsame)

/-- A store with one handle, which holds a dictionary. -/
def palette : Handle × Store Unit :=
  Store.empty.newHandle "palette" (.dict (Dict.ofValues [("red", .string "#f00")]))

/-- Entries that name values and a reference; two of the values are not there. -/
def paint : Dict Value := Dict.ofValues
  [("a", .string "value:green"), ("b", .string "value:blue"), ("c", .string "value:red"),
    ("d", .string "ref:brush"), ("values", .resource palette.1)]

/-- Two tasks at a time, of which the second one runs first. -/
def backwards : FanOut where
  batch := 2
  order workers := (List.range workers.length).reverse
  complete _ := List.reverse_perm _

/-- Tasks that run backwards: the diagnostics are the same ones, in another order. -/
theorem run_expanded_fanOut_backwards :
    palette.2.handles.ChainsEnd ∧ ∃ out q out' q',
      (expanded.run revisitLimit paint).run (noFiles.withFanOut none)
        (Progress.initial palette.2) = (.ok out, q) ∧
      (expanded.run revisitLimit paint).run (noFiles.withFanOut (some backwards))
        (Progress.initial palette.2) = (.ok out', q') ∧
      (out' == out) = true ∧
      (∀ path : Path, path.Among q'.files ↔ path.Among q.files) ∧
      (∀ name, q'.references.contains name = q.references.contains name) ∧
      q'.errors.toList.Perm q.errors.toList ∧
      q.errors.toList.map (·.path) = ["/a", "/b"] ∧
      q'.errors.toList.map (·.path) = ["/b", "/a"] := by
  have hends : palette.2.handles.ChainsEnd := Handles.chainsEnd_new Handles.chainsEnd_empty
  have hpaths : (((expanded.run revisitLimit paint).run (noFiles.withFanOut none)
      (Progress.initial palette.2)).2.errors.toList.map (·.path)) = ["/a", "/b"] := by
    decide +kernel
  have hpaths' : (((expanded.run revisitLimit paint).run (noFiles.withFanOut (some backwards))
      (Progress.initial palette.2)).2.errors.toList.map (·.path)) = ["/b", "/a"] := by
    decide +kernel
  obtain ⟨out, q, out', q', hrun, hrun', hout, hfiles, hreferences, herrors⟩ :=
    run_expanded_fanOut noFiles backwards (Progress.initial palette.2) paint hends
  rw [hrun] at hpaths
  rw [hrun'] at hpaths'
  exact ⟨hends, out, q, out', q', hrun, hrun', hout, hfiles, hreferences, herrors, hpaths, hpaths'⟩

end Compile

end ResourceTree
