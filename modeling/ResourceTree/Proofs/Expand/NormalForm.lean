import ResourceTree.Files.Memory
import ResourceTree.Proofs.Expand.Layers
import ResourceTree.Proofs.Value.Equality
import ResourceTree.Proofs.Walk.Account

/-!
# The normal form of an expansion

What an expansion leaves has nothing in it that asks to be expanded, whatever the tree, the files
and the named values were. So to expand it again changes nothing.

* **`Value.Normal`**: no name and no mark is left that an expansion gives a meaning;
* `Indifferent`, **`says_expansion`**, `gives_expansion`: a visit ends, and leaves a normal form;
* `Account.untouched`, **`gives_expansion_again`**: the visit of a normal form;
* `gives_run`, `gives_run_leaves`: from the visit of a whole dictionary to a run;
* **`run_expanded_normal`**: an expansion, and another one of what it leaves.
-/

namespace ResourceTree

open ResourceTree.Action

/-! ## Normal forms -/

namespace Reserved

variable {mark text : String}

theorem afterMark?_eq_none_iff : afterMark? mark text = none ↔ ¬ mark.toList <+: text.toList := by
  unfold afterMark?
  rw [ite_eq_right_iff, List.isPrefixOf_iff_prefix]
  simp

end Reserved

namespace Value

/-- **Nothing inside asks to be expanded**: no dictionary has named values, an import or a template,
and no string is marked as a value or a reference. -/
structure Normal (v : Value) : Prop where
  names : ∀ d, Within (.dict d) v →
    ∀ name ∈ [Reserved.values, Reserved.import_, Reserved.template], d.contains name = false
  strings : ∀ text, Within (.string text) v →
    ∀ mark ∈ [Reserved.valueMark, Reserved.refMark], ¬ mark.toList <+: text.toList

variable {d : Dict Value} {items : List Value} {v : Value} {text : String}

theorem normal_dict
    (h : ∀ name ∈ [Reserved.values, Reserved.import_, Reserved.template], d.contains name = false)
    (hm : ∀ entry ∈ d.entries, entry.2.Normal) : (Value.dict d).Normal where
  names := by
    rintro d' (_ | ⟨hentry, hd'⟩)
    · exact h
    · exact (hm _ hentry).names d' hd'
  strings := by
    rintro text (_ | ⟨hentry, htext⟩)
    exact (hm _ hentry).strings text htext

theorem normal_list (h : ∀ item ∈ items, item.Normal) : (Value.list items).Normal where
  names := by
    rintro d (_ | _ | ⟨hitem, hd⟩)
    exact (h _ hitem).names d hd
  strings := by
    rintro text (_ | _ | ⟨hitem, htext⟩)
    exact (h _ hitem).strings text htext

theorem normal_string
    (h : ∀ mark ∈ [Reserved.valueMark, Reserved.refMark], ¬ mark.toList <+: text.toList) :
    (Value.string text).Normal where
  names := nofun
  strings := by
    rintro _ (_ | _)
    exact h

theorem Normal.member (h : (Value.dict d).Normal) {entry : String × Value}
    (hentry : entry ∈ d.entries) : entry.2.Normal :=
  ⟨fun d' hd' => h.names d' (.member hentry hd'),
    fun text htext => h.strings text (.member hentry htext)⟩

theorem Normal.item (h : (Value.list items).Normal) (hv : v ∈ items) : v.Normal :=
  ⟨fun d hd => h.names d (.item hv hd), fun text htext => h.strings text (.item hv htext)⟩

theorem normal_leaf (hdict : ∀ d, v ≠ .dict d) (hlist : ∀ items, v ≠ .list items)
    (hstring : ∀ text, v ≠ .string text) : v.Normal where
  names d hd := absurd (within_leaf hdict hlist hd).symm (hdict d)
  strings text htext := absurd (within_leaf hdict hlist htext).symm (hstring text)

end Value

namespace Account

variable {σ M α : Type} [AddCommMonoid M] {A : Account σ M} {setting : Setting σ}
  {post : α → Prop} {m : M}

/-- Nothing is asked and nothing is counted. -/
def unconditional : Account σ Nat where
  Holds _ := True
  tally _ := 0
  nextWorker _ _ _ := ⟨trivial, rfl⟩

theorem gives_of_noting {action : Action σ α} (h : Noting setting action) :
    unconditional.Gives setting (fun _ => True) action 0 := fun p _ =>
  let ⟨_, hrun⟩ := h
  ⟨_, _, hrun setting.fanOut p, trivial, trivial, rfl⟩

theorem gives_reference {name : String} :
    (unconditional : Account σ Nat).Gives setting (fun _ => True) (reference name) 0 := by
  intro p _
  refine ⟨_, _, Prod.ext rfl rfl, trivial, trivial, rfl⟩

/-- Only workers are numbered. -/
def untouched (start : Progress σ) : Account σ Nat where
  Holds p := ∃ n, p = { start with nextWorker := n }
  tally _ := 0
  nextWorker := by
    rintro _ n ⟨_, rfl⟩
    exact ⟨⟨n, rfl⟩, rfl⟩

end Account

namespace Compile

open Account

variable {σ : Type} {setting : Setting σ} {place : Place} {d : Dict Value} {v : Value}

/-! ## What an expansion leaves -/

/-- What a visit leaves of a value: nothing, or a normal form, which is a dictionary if the value
was one. -/
def Leaves (v : Value) (result : Option Value) : Prop :=
  ∀ w ∈ result, w.Normal ∧ w.WellFormed ∧ ∀ d, v = .dict d → ∃ out, w = .dict out

theorem leaves_none : Leaves v none := nofun

theorem contains_collect {visited : List Place.Visited} {name : String}
    (h : name ∉ Dict.names (visited.map Prod.fst)) :
    (Place.collect ∅ visited).contains name = false := by
  rw [← Bool.not_eq_true, Dict.contains_iff]
  intro hmem
  obtain ⟨entry, hentry, rfl⟩ := List.mem_map.mp hmem
  obtain ⟨member, hmember, hname, -⟩ := Place.mem_of_mem_collect hentry
  exact h (List.mem_map.mpr ⟨member.1, List.mem_map_of_mem hmember, hname⟩)

/-- A dictionary of normal forms has none of the names that have a meaning, if the one whose members
were visited lies over no other. -/
theorem leaves_members (hd : hasDirective d = false) {out : Dict Value}
    (h : Place.Collects (fun entry => Leaves entry.2) ∅ (Dict.inKeyOrder (openMembers d)) out) :
    Leaves (.dict d) (some (.dict out)) := by
  obtain ⟨visited, hnames, hresults, rfl⟩ := h
  have hentries : ∀ entry ∈ (Place.collect ∅ visited).entries,
      entry.2.Normal ∧ entry.2.WellFormed := by
    intro entry hentry
    obtain ⟨member, hmember, -, hresult⟩ := Place.mem_of_mem_collect hentry
    have h := hresults member hmember entry.2 hresult
    exact ⟨h.1, h.2.1⟩
  have hopen : ∀ name ∈ Dict.names (visited.map Prod.fst), name ≠ Reserved.values ∧
      name ∈ Dict.names d.entries := by
    intro name hname
    rw [hnames] at hname
    obtain ⟨entry, hentry, rfl⟩ := List.mem_map.mp hname
    obtain ⟨hmem, hvalues⟩ := List.mem_filter.mp (Dict.inKeyOrder_subset hentry)
    exact ⟨by simpa using hvalues, List.mem_map_of_mem hmem⟩
  obtain ⟨himport, htemplate⟩ := Bool.or_eq_false_iff.mp hd
  intro w hw
  obtain rfl := Option.some.inj hw
  refine ⟨Value.normal_dict ?_ fun entry hentry => (hentries entry hentry).1,
    Value.wellFormed_dict Place.wellFormed_collect Place.nullFree_collect fun entry hentry =>
      (hentries entry hentry).2, fun _ _ => ⟨_, rfl⟩⟩
  intro name hname
  refine contains_collect fun hmem => ?_
  obtain ⟨hne, hmem⟩ := hopen name hmem
  rw [← Dict.contains_iff] at hmem
  simp only [List.mem_cons, List.not_mem_nil, or_false] at hname
  rcases hname with rfl | rfl | rfl
  · exact hne rfl
  · exact Bool.noConfusion (hmem.symm.trans himport)
  · exact Bool.noConfusion (hmem.symm.trans htemplate)

theorem leaves_list {items out : List Value} {elements : List (Value × Nat)}
    (h : Place.Lists (fun element => Leaves element.1) elements out) :
    Leaves (.list items) (some (.list out)) := by
  obtain ⟨visited, -, hresults, rfl⟩ := h
  have hitems : ∀ w ∈ visited.filterMap Prod.snd, w.Normal ∧ w.WellFormed := by
    intro w hw
    obtain ⟨element, helement, hresult⟩ := List.mem_filterMap.mp hw
    have h := hresults element helement w hresult
    exact ⟨h.1, h.2.1⟩
  intro w hw
  obtain rfl := Option.some.inj hw
  exact ⟨Value.normal_list fun item hitem => (hitems item hitem).1,
    Value.wellFormed_list fun item hitem => (hitems item hitem).2, nofun⟩

theorem Leaves.of_string {result : Option Value} {text : String} (h : Leaves v result) :
    Leaves (.string text) result := fun w hw => ⟨(h w hw).1, (h w hw).2.1, nofun⟩

theorem leaves_self (hv : v.Normal) (hdict : ∀ d, v ≠ .dict d) (hlist : ∀ items, v ≠ .list items) :
    Leaves v (some v) := fun _ hw =>
  Option.some.inj hw ▸ ⟨hv, Value.wellFormed_leaf hdict hlist, fun d hd => absurd hd (hdict d)⟩

/-- A judgement that notes, references and a look at the handles make no difference to. -/
structure Indifferent {M : Type} [AddCommMonoid M] (J : Judgement σ M) (setting : Setting σ) :
    Prop where
  noting : ∀ {α : Type} {action : Action σ α}, Noting setting action →
    J.Says setting (fun _ => True) action 0
  reference : ∀ name, J.Says setting (fun _ => True) (reference name) 0
  handles : ∀ {α : Type} {post : α → Prop} {f : Handles → Action σ α},
    (∀ hs, J.Says setting post (f hs) 0) → J.Says setting post (handles >>= f) 0

/-- **Every visit leaves a normal form.** -/
theorem says_expansion {M : Type} [AddCommMonoid M] {J : Judgement σ M}
    (hJ : Indifferent J setting) (v : Value) (place : Place) :
    J.Says setting (Leaves v) (expansion v place) 0 := by
  have hdropped : ∀ (v : Value) (place : Place) (message : String),
      J.Says setting (Leaves v) (addError place .resolution message >>= fun _ => pure none) 0 :=
    fun v place message =>
      J.says_bind_pure (hJ.noting (noting_addError place _ message)) fun _ _ => leaves_none
  induction v, place using induct_expansion with
  | dict d place ih ihdeeper =>
    cases hd : hasDirective d with
    | false =>
      rw [expansion_members hd]
      refine hJ.handles fun hs => ?_
      refine J.says_bind_pure (J.says_runMembers_zero fun entry hentry worker => ?_)
        fun out hout => leaves_members hd hout
      exact ih entry (openMembers_subset hentry)
        (((place.inScope _).member entry.1).withWorker worker) rfl
    | true =>
      rcases Nat.lt_or_ge place.nesting revisitLimit with hlt | hge
      · rw [expansion_directive hd hlt]
        refine J.says_bind_zero (hJ.noting (noting_expandDict place d)) fun d' => ?_
        exact J.says_mono (ihdeeper hlt (.dict d')) fun result hresult _ w hw =>
          ⟨(hresult w hw).1, (hresult w hw).2.1, fun _ _ => (hresult w hw).2.2 d' rfl⟩
      · rw [expansion_capped hd hge]
        exact hdropped _ place _
  | list items place ih =>
    rw [expansion_list]
    exact J.says_bind_pure (J.says_runElements_zero 0 fun element helement =>
      ih element.1 helement (place.element element.2) rfl) fun out hout => leaves_list hout
  | string text place ihdeeper =>
    cases hvalue : Reserved.afterMark? Reserved.valueMark text with
    | some path =>
      rcases Nat.lt_or_ge place.nesting revisitLimit with hlt | hge
      · rw [expansion_value hvalue hlt]
        refine hJ.handles fun hs => ?_
        cases place.lookup hs path with
        | none => exact hdropped _ place _
        | some w => exact J.says_mono (ihdeeper hlt w) fun result hresult => hresult.of_string
      · rw [expansion_valueCapped hvalue hge]
        exact hdropped _ place _
    | none =>
      cases href : Reserved.afterMark? Reserved.refMark text with
      | some name =>
        rw [expansion_reference hvalue href]
        refine J.says_bind_pure (hJ.reference name) fun h _ =>
          Leaves.of_string (v := .resource h) ?_
        exact leaves_self (Value.normal_leaf (by simp) (by simp) (by simp)) (by simp) (by simp)
      | none =>
        rw [expansion_text hvalue href]
        refine J.says_pure (leaves_self (Value.normal_string ?_) (by simp) (by simp))
        simpa using
          ⟨Reserved.afterMark?_eq_none_iff.mp hvalue, Reserved.afterMark?_eq_none_iff.mp href⟩
  | leaf v place hdict hlist hstring =>
    rw [expansion_leaf hdict hlist hstring]
    exact J.says_pure (leaves_self (Value.normal_leaf hdict hlist hstring) hdict hlist)

theorem indifferent_unconditional :
    Indifferent (unconditional : Account σ Nat).judgement setting where
  noting := gives_of_noting
  reference _ := gives_reference
  handles h := gives_handles_bind fun p _ => h p.store.handles

/-- **Every visit ends without a panic and leaves a normal form.** -/
theorem gives_expansion (setting : Setting σ) (v : Value) (place : Place) :
    (unconditional : Account σ Nat).Gives setting (Leaves v) (expansion v place) 0 :=
  says_expansion indifferent_unconditional v place

/-! ## Once more -/

/-- A normal form comes back as an equal value. -/
def Returns (v : Value) (result : Option Value) : Prop := ∃ w, result = some w ∧ (w == v) = true

theorem returns_self (hv : v.WellFormed) : Returns v (some v) :=
  ⟨v, rfl, Value.eqUsing_refl Packed.beq_refl hv⟩

theorem ne_null_of_beq {v w : Value} (h : (w == v) = true) (hv : v ≠ .null) : w ≠ .null := by
  rintro rfl
  cases v with
  | null => exact hv rfl
  | _ => exact Bool.noConfusion h

theorem openMembers_of_normal (hd : (Value.dict d).Normal) : openMembers d = d.entries := by
  refine List.filter_eq_self.mpr fun entry hentry => ?_
  have hvalues := hd.names d .self Reserved.values (by simp)
  rw [← Bool.not_eq_true, Dict.contains_iff] at hvalues
  have hne : entry.1 ≠ Reserved.values := fun heq => hvalues (heq ▸ List.mem_map_of_mem hentry)
  simpa using hne

theorem hasDirective_of_normal (hd : (Value.dict d).Normal) : hasDirective d = false := by
  rw [hasDirective, hd.names d .self Reserved.import_ (by simp),
    hd.names d .self Reserved.template (by simp)]
  rfl

theorem returns_members (hd : (Value.dict d).WellFormed) {out : Dict Value}
    (h : Place.Collects (fun entry => Returns entry.2) ∅ (Dict.inKeyOrder d.entries) out) :
    Returns (.dict d) (some (.dict out)) := by
  obtain ⟨visited, hnames, hresults, rfl⟩ := h
  have hperm : (visited.map Prod.fst).Perm d.entries := by
    rw [hnames]
    exact Dict.inKeyOrder_perm hd.root.nodup
  have hresults : ∀ member ∈ visited,
      ∃ w, member.2 = some w ∧ (w == member.1.2) = true ∧ w ≠ .null := by
    intro member hmember
    obtain ⟨w, hw, heq⟩ := hresults member hmember
    have hentry : member.1 ∈ d.entries := hperm.subset (List.mem_map_of_mem hmember)
    exact ⟨w, hw, heq, ne_null_of_beq heq (hd.nullFree member.1 hentry)⟩
  refine ⟨_, rfl, ?_⟩
  show Value.eqUsing Packed.beq (.dict (Place.collect ∅ visited)) (.dict d) = true
  rw [Value.eqUsing_dict]
  refine Dict.eqUsing_iff.mpr ⟨?_, fun entry hentry => ?_⟩
  · have hsorted : (Dict.names (visited.map Prod.fst)).Pairwise (· < ·) := by
      rw [hnames]
      exact Dict.pairwise_inKeyOrder
    have hlength := hperm.length_eq
    rw [List.length_map] at hlength
    rw [Place.size_collect hsorted fun member hmember => ?_, hlength, Dict.size]
    obtain ⟨w, hw, -, hne⟩ := hresults member hmember
    exact ⟨w, hw, hne⟩
  · obtain ⟨member, hmember, hname, hresult⟩ := Place.mem_of_mem_collect hentry
    obtain ⟨w, hw, heq, -⟩ := hresults member hmember
    obtain rfl := Option.some.inj (hw.symm.trans hresult)
    have hthere : member.1 ∈ d.entries := hperm.subset (List.mem_map_of_mem hmember)
    exact ⟨member.1.2, (Dict.get?_eq_some_iff hd.root).mpr (hname ▸ hthere), heq⟩

theorem returns_list {items out : List Value}
    (h : Place.Lists (fun element => Returns element.1) (items.zipIdx 0) out) :
    Returns (.list items) (some (.list out)) := by
  obtain ⟨visited, helements, hresults, rfl⟩ := h
  obtain rfl : (visited.map Prod.fst).map Prod.fst = items := by
    rw [helements]
    exact List.zipIdx_map_fst 0 items
  refine ⟨_, rfl, ?_⟩
  show Value.itemsEq Packed.beq (visited.filterMap Prod.snd) _ = true
  clear helements
  induction visited with
  | nil => rfl
  | cons element rest ih =>
    obtain ⟨⟨w, hw, heq⟩, hrest⟩ := List.forall_mem_cons.mp hresults
    rw [List.filterMap_cons_some hw]
    exact Bool.and_eq_true_iff.mpr ⟨heq, ih hrest⟩

/-- **The visit of a normal form** brings it back and adds nothing. -/
theorem gives_expansion_again (setting : Setting σ) (start : Progress σ) (v : Value)
    (place : Place) (hnormal : v.Normal) (hv : v.WellFormed) :
    (untouched start).Gives setting (Returns v) (expansion v place) 0 := by
  induction v using Value.induct generalizing place with
  | dict d ih =>
    rw [expansion_members (hasDirective_of_normal hnormal)]
    refine gives_handles_bind fun p _ => ?_
    rw [openMembers_of_normal hnormal]
    refine Gives.bind_pure (gives_runMembers_zero fun entry hentry worker => ?_) fun out hout =>
      returns_members hv hout
    exact ih entry hentry _ (hnormal.member hentry) (hv.member hentry)
  | list items ih =>
    rw [expansion_list]
    refine Gives.bind_pure (gives_runElements_zero 0 fun element helement => ?_) fun out hout =>
      returns_list hout
    exact ih element.1 helement _ (hnormal.item helement) (hv.item helement)
  | string text =>
    have hmark := hnormal.strings text .self
    rw [expansion_text (Reserved.afterMark?_eq_none_iff.mpr (hmark _ (by simp)))
      (Reserved.afterMark?_eq_none_iff.mpr (hmark _ (by simp)))]
    exact gives_pure (returns_self hv)
  | _ =>
    rw [expansion_leaf (by simp) (by simp) (by simp)]
    exact gives_pure (returns_self hv)

/-! ## Runs -/

/-- **A whole run**, from the visit of its dictionary: what is dropped counts as empty. -/
theorem gives_run {M : Type} [AddCommMonoid M] {A : Account σ M} {post : Option Value → Prop}
    {m : M} (h : A.Gives setting post (expansion (.dict d) (Place.root 0)) m)
    (hdict : ∀ w, post (some w) → ∃ out, w = .dict out) :
    A.Gives setting (fun out => post (some (.dict out)) ∨ post none ∧ out = ∅)
      (expanded.run revisitLimit d) m := by
  rw [Rewrite.run_eq_root anyWorker_expanded, ← zero_add m]
  refine gives_nextWorker.bind fun _ _ => ?_
  rw [← add_zero m]
  refine h.bind fun result hresult => ?_
  cases result with
  | none => exact gives_pure (.inr ⟨hresult, rfl⟩)
  | some w =>
    obtain ⟨out, rfl⟩ := hdict w hresult
    exact gives_pure (.inl hresult)

/-- A run ends without a panic, in a well-formed normal form. -/
theorem gives_run_leaves (setting : Setting σ) (d : Dict Value) :
    (unconditional : Account σ Nat).Gives setting
      (fun out => (Value.dict out).Normal ∧ (Value.dict out).WellFormed)
      (expanded.run revisitLimit d) 0 := by
  refine (gives_run (gives_expansion setting (.dict d) (Place.root 0)) fun w hw =>
    (hw w rfl).2.2 d rfl).mono fun out hout => ?_
  rcases hout with hout | ⟨-, rfl⟩
  · exact ⟨(hout _ rfl).1, (hout _ rfl).2.1⟩
  · exact ⟨Value.normal_dict (by simp [Dict.contains]) nofun,
      Value.wellFormed_dict Dict.wellFormed_empty Dict.nullFree_empty nofun⟩

/-- **An expansion ends in a normal form.** Whatever the tree, the files and what came before, and
however members are spread over tasks, what it leaves has no named values, imports or templates, and
no string in it is marked as a value or a reference. To expand that again, in any setting and after
anything else, gives an equal dictionary, and but for the numbers of workers nothing is changed: no
diagnostic is added and no file is recorded. -/
theorem run_expanded_normal (setting : Setting σ) (p : Progress σ) (d : Dict Value) :
    ∃ out q, (expanded.run revisitLimit d).run setting p = (.ok out, q) ∧
      (Value.dict out).Normal ∧
      ∀ (setting' : Setting σ) (p' : Progress σ), ∃ out' q',
        (expanded.run revisitLimit out).run setting' p' = (.ok out', q') ∧
        (out' == out) = true ∧ q' = { p' with nextWorker := q'.nextWorker } := by
  obtain ⟨out, q, hrun, hout, -⟩ := gives_run_leaves setting d p trivial
  refine ⟨out, q, hrun, hout.1, fun setting' p' => ?_⟩
  have hagain := gives_run
    (gives_expansion_again setting' p' (.dict out) (Place.root 0) hout.1 hout.2) fun w hw => ?_
  · obtain ⟨out', q', hrun', hout', ⟨n, rfl⟩, -⟩ := hagain p' ⟨p'.nextWorker, rfl⟩
    refine ⟨out', _, hrun', ?_, rfl⟩
    obtain ⟨_, hsome, heq⟩ | ⟨⟨_, hnone, -⟩, -⟩ := hout'
    · obtain rfl := Option.some.inj hsome
      exact (Value.eqUsing_dict out' out).symm.trans heq
    · cases hnone
  · obtain ⟨_, hsome, heq⟩ := hw
    obtain rfl := Option.some.inj hsome
    cases w with
    | dict again => exact ⟨again, rfl⟩
    | _ => exact Bool.noConfusion heq

/-- A setting without files. -/
def noFiles : Setting Unit := .of ⟨"/"⟩ false (FileView.of MemoryFiles.empty) .empty none

example : ((expanded.run revisitLimit (Dict.ofValues [("a", .string "value:b"),
    ("values", .dict (Dict.ofValues [("b", .list [.string "value:c", .string "file:d"]),
      ("c", .bool true)]))])).run noFiles (Progress.initial .empty)).1.toOption.map
        (· == Dict.ofValues [("a", .list [.bool true, .string "file:d"])]) = some true := by
  decide +kernel

end Compile

end ResourceTree
