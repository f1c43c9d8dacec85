import ResourceTree.Proofs.Compile.Rebuilt
import ResourceTree.Proofs.Dict.Copies

/-!
# Flags — `compress` members are lifted out of a tree

`compress` members are taken out of every dictionary of a tree, and nothing else is changed. What is
inside such a member goes with it and asks for nothing. The look at a tree before its objects are
made goes through `compress` members as well, so that it misses no request that is found when they
are taken out.

* `Compile.ReadsAs`, `Exposed`, `Requests`, `AsksBelow`: dictionaries that ask for compression;
* `asksInside_iff`, **`membersAsk_iff`**: the requests that are found when flags are taken out;
* **`requestsPacking_of_asksBelow`**: none of them is missed before;
* `Stripped`, `stripped_withoutFlags`, `Stripped.get?_compress`: what is left of a tree;
* **`withoutFlags_again`**: from what is left nothing is taken out;
* **`stripFlags_lifts`**.
-/

namespace ResourceTree

namespace Compile

variable {hs : Handles} {v w x : Value} {d root : Dict Value} {b : Bool}
  {entries : List (String × Value)}

/-! ## Requests -/

/-- A value reads as a truth value. -/
def ReadsAs (hs : Handles) (v : Value) (b : Bool) : Prop := hs.convert v .bool = some (.bool b)

theorem flag?_eq_some_iff : flag? hs v = some b ↔ ReadsAs hs v b := by
  unfold flag? ReadsAs
  cases hs.convert v .bool with
  | none => exact iff_of_false nofun nofun
  | some w => cases w <;> simp [Value.asBool?]

/-- A value is another one or occurs in it outside `compress` members. -/
inductive Exposed : Value → Value → Prop where
  | self {v : Value} : Exposed v v
  | member {x : Value} {d : Dict Value} {entry : String × Value} (hentry : entry ∈ d.entries)
      (hname : entry.1 ≠ Reserved.compress) (h : Exposed x entry.2) : Exposed x (.dict d)
  | item {x v : Value} {items : List Value} (hitem : v ∈ items) (h : Exposed x v) :
      Exposed x (.list items)

/-- A dictionary has a `compress` member that reads as true. -/
def Requests (hs : Handles) (d : Dict Value) : Prop :=
  ∃ v, d.get? Reserved.compress = some v ∧ ReadsAs hs v true

/-- A dictionary below the root, outside all `compress` members, asks for compression. -/
def AsksBelow (hs : Handles) (root : Dict Value) : Prop :=
  ∃ entry ∈ root.entries, entry.1 ≠ Reserved.compress ∧
    ∃ d, Exposed (.dict d) entry.2 ∧ Requests hs d

theorem requests_iff (h : d.WellFormed) : Requests hs d ↔
    ∃ entry ∈ d.entries, entry.1 = Reserved.compress ∧ ReadsAs hs entry.2 true := by
  constructor
  · rintro ⟨v, hv, hreads⟩
    exact ⟨_, (Dict.get?_eq_some_iff h).mp hv, rfl, hreads⟩
  · rintro ⟨⟨name, v⟩, hentry, rfl, hreads⟩
    exact ⟨v, (Dict.get?_eq_some_iff h).mpr hentry, hreads⟩

/-! ### Requests that are taken out -/

theorem membersAsk_eq_true_iff : membersAsk hs entries = true ↔
    (∃ entry ∈ entries, entry.1 = Reserved.compress ∧ ReadsAs hs entry.2 true) ∨
      ∃ entry ∈ entries, entry.1 ≠ Reserved.compress ∧ asksInside hs entry.2 = true := by
  induction entries with
  | nil => simp [membersAsk]
  | cons entry rest ih =>
    rw [membersAsk, Bool.or_eq_true, ih, List.exists_mem_cons_iff, List.exists_mem_cons_iff]
    by_cases hname : entry.1 = Reserved.compress
    · rw [if_pos hname, decide_eq_true_eq, flag?_eq_some_iff]
      simp only [hname, true_and, ne_eq, not_true_eq_false, false_and, false_or, or_assoc]
    · rw [if_neg hname]
      simp only [hname, false_and, false_or, ne_eq, not_false_eq_true, true_and]
      exact or_left_comm

theorem itemsAsk_eq_true_iff {items : List Value} :
    itemsAsk hs items = true ↔ ∃ item ∈ items, asksInside hs item = true := by
  induction items with
  | nil => simp [itemsAsk]
  | cons item rest ih => rw [itemsAsk, Bool.or_eq_true, ih, List.exists_mem_cons_iff]

/-- **A request is taken out of a value where one of its exposed dictionaries makes it.** -/
theorem asksInside_iff (h : v.WellFormed) :
    asksInside hs v = true ↔ ∃ d, Exposed (.dict d) v ∧ Requests hs d := by
  induction v using Value.induct with
  | dict d ih =>
    rw [asksInside, membersAsk_eq_true_iff, ← requests_iff h.root]
    constructor
    · rintro (hself | ⟨entry, hentry, hname, hasks⟩)
      · exact ⟨d, .self, hself⟩
      · obtain ⟨inner, hinner, hrequests⟩ := (ih entry hentry (h.member hentry)).mp hasks
        exact ⟨inner, .member hentry hname hinner, hrequests⟩
    · rintro ⟨inner, _ | ⟨hentry, hname, hinner⟩, hrequests⟩
      · exact .inl hrequests
      · exact .inr ⟨_, hentry, hname,
          (ih _ hentry (h.member hentry)).mpr ⟨inner, hinner, hrequests⟩⟩
  | list items ih =>
    rw [asksInside, itemsAsk_eq_true_iff]
    constructor
    · rintro ⟨item, hitem, hasks⟩
      obtain ⟨inner, hinner, hrequests⟩ := (ih item hitem (h.item hitem)).mp hasks
      exact ⟨inner, .item hitem hinner, hrequests⟩
    · rintro ⟨inner, _ | _ | ⟨hitem, hinner⟩, hrequests⟩
      exact ⟨_, hitem, (ih _ hitem (h.item hitem)).mpr ⟨inner, hinner, hrequests⟩⟩
  | _ =>
    refine iff_of_false (by simp [asksInside]) ?_
    rintro ⟨inner, ⟨⟩, -⟩

/-- **The requests of a root and of what lies below it.** -/
theorem membersAsk_iff (h : (Value.dict root).WellFormed) :
    membersAsk hs root.entries = true ↔ Requests hs root ∨ AsksBelow hs root := by
  rw [membersAsk_eq_true_iff, ← requests_iff h.root]
  refine or_congr_right (exists_congr fun entry => and_congr_right fun hentry => ?_)
  exact and_congr_right fun _ => asksInside_iff (h.member hentry)

/-! ### The look before -/

theorem membersRequest_eq (entries : List (String × Value)) : membersRequest hs entries =
    entries.any fun entry => asks hs entry.1 entry.2 || valueRequests hs entry.2 := by
  induction entries with
  | nil => rfl
  | cons entry rest ih => rw [membersRequest, ih, List.any_cons]

theorem itemsRequest_eq (items : List Value) :
    itemsRequest hs items = items.any (valueRequests hs) := by
  induction items with
  | nil => rfl
  | cons item rest ih => rw [itemsRequest, ih, List.any_cons]

theorem valueRequests_of_requests (h : d.WellFormed) (hd : Requests hs d) :
    valueRequests hs (.dict d) = true := by
  obtain ⟨entry, hentry, hname, hreads⟩ := (requests_iff h).mp hd
  rw [valueRequests, membersRequest_eq]
  refine List.any_eq_true.mpr ⟨entry, hentry, ?_⟩
  simp [asks, hname, flag?_eq_some_iff.mpr hreads]

theorem valueRequests_of_exposed (h : Exposed x v) (hx : valueRequests hs x = true) :
    valueRequests hs v = true := by
  induction h with
  | self => exact hx
  | member hentry _ _ ih =>
    rw [valueRequests, membersRequest_eq]
    exact List.any_eq_true.mpr ⟨_, hentry, by rw [ih, Bool.or_true]⟩
  | item hitem _ ih =>
    rw [valueRequests, itemsRequest_eq]
    exact List.any_eq_true.mpr ⟨_, hitem, ih⟩

theorem Exposed.within (h : Exposed x v) : x.Within v := by
  induction h with
  | self => exact .self
  | member hentry _ _ ih => exact .member hentry ih
  | item hitem _ ih => exact .item hitem ih

/-- **No request below the root is missed before objects are made.** -/
theorem requestsPacking_of_asksBelow (h : (Value.dict root).WellFormed)
    (hasks : AsksBelow hs root) : requestsPacking hs root = true := by
  obtain ⟨entry, hentry, hname, d, hd, hrequests⟩ := hasks
  have hwf : d.WellFormed := (h.member hentry d hd.within).1
  have hseen : valueRequests hs entry.2 = true :=
    valueRequests_of_exposed hd (valueRequests_of_requests hwf hrequests)
  refine List.any_eq_true.mpr ⟨entry, hentry, ?_⟩
  rw [hseen, Bool.and_true]
  exact decide_eq_true hname

/-! ## What is left -/

/-- **A value is what is left of another one**: dictionaries have lost their `compress` members, and
all other members and all items are what is left of those that were there. -/
inductive Stripped : Value → Value → Prop where
  | single {v : Value} (h : v.IsSingle) : Stripped v v
  | list {items left : List Value} (h : List.Forall₂ Stripped items left) :
      Stripped (.list items) (.list left)
  | dict {d left : Dict Value} (gone : left.get? Reserved.compress = none)
      (kept : ∀ name, name ≠ Reserved.compress →
        Option.Rel Stripped (d.get? name) (left.get? name)) : Stripped (.dict d) (.dict left)

theorem stripped_ofMembers (h : (Value.dict d).WellFormed)
    (hmembers : ∀ entry ∈ d.entries, Stripped entry.2 (withoutFlags entry.2)) :
    Stripped (.dict d) (.dict (Dict.ofValues (membersWithoutFlags d.entries))) := by
  refine .dict ?_ fun name hname => ?_
  · rw [get?_withoutFlags h.root h.nullFree, if_pos rfl]
  · rw [get?_withoutFlags h.root h.nullFree, if_neg hname]
    cases hget : d.get? name with
    | none => exact .none
    | some v => exact .some (hmembers (name, v) ((Dict.get?_eq_some_iff h.root).mp hget))

theorem stripped_withoutFlags (h : v.WellFormed) : Stripped v (withoutFlags v) := by
  induction v using Value.induct with
  | dict d ih =>
    rw [withoutFlags_dict]
    exact stripped_ofMembers h fun entry hentry => ih entry hentry (h.member hentry)
  | list items ih =>
    rw [withoutFlags, itemsWithoutFlags_eq]
    refine .list (List.forall₂_map_right_iff.mpr (List.forall₂_same.mpr fun item hitem => ?_))
    exact ih item hitem (h.item hitem)
  | _ => exact .single trivial

/-- **No dictionary of what is left has a `compress` member.** -/
theorem Stripped.get?_compress (h : Stripped v w) (hw : w.WellFormed)
    (hd : (Value.dict d).Within w) : d.get? Reserved.compress = none := by
  induction w using Value.induct generalizing v with
  | dict left ih =>
    cases h with
    | single h => exact h.elim
    | @dict source _ gone kept =>
      cases hd with
      | self => exact gone
      | @member _ entry hentry hd =>
        have hget := (Dict.get?_eq_some_iff hw.root).mpr hentry
        have hname : entry.1 ≠ Reserved.compress := fun hname => by
          rw [hname, gone] at hget
          cases hget
        have hrel := kept entry.1 hname
        rw [hget] at hrel
        cases hsource : source.get? entry.1 with
        | none => rw [hsource] at hrel; cases hrel
        | some u =>
          rw [hsource] at hrel
          cases hrel with
          | some hrel => exact ih entry hentry hrel (hw.member hentry) hd
  | list left ih =>
    cases h with
    | single h => exact h.elim
    | @list items _ h =>
      cases hd with
      | item hitem hd =>
        obtain ⟨i, hi, rfl⟩ := List.getElem_of_mem hitem
        obtain ⟨hlength, hrel⟩ := List.forall₂_iff_get.mp h
        exact ih _ hitem (hrel i (hlength ▸ hi) hi) (hw.item hitem) hd
  | _ => cases hd

/-! ### Nothing more is taken out -/

theorem membersWithoutFlags_self
    (h : ∀ entry ∈ entries, entry.1 ≠ Reserved.compress ∧ withoutFlags entry.2 = entry.2) :
    membersWithoutFlags entries = entries := by
  induction entries with
  | nil => rfl
  | cons entry rest ih =>
    obtain ⟨⟨hname, hself⟩, hrest⟩ := List.forall_mem_cons.mp h
    rw [membersWithoutFlags, if_neg hname, hself, ih hrest]

theorem ofMembers_again (h : (Value.dict d).WellFormed)
    (hagain : ∀ entry ∈ d.entries, withoutFlags (withoutFlags entry.2) = withoutFlags entry.2) :
    Dict.ofValues (membersWithoutFlags (Dict.ofValues (membersWithoutFlags d.entries)).entries) =
      Dict.ofValues (membersWithoutFlags d.entries) := by
  have hself : membersWithoutFlags (Dict.ofValues (membersWithoutFlags d.entries)).entries =
      (Dict.ofValues (membersWithoutFlags d.entries)).entries := by
    refine membersWithoutFlags_self fun member hmember => ?_
    have hleft := Dict.subperm_ofValues.subset hmember
    rw [membersWithoutFlags_eq] at hleft
    obtain ⟨entry, hentry, rfl⟩ := List.mem_map.mp hleft
    obtain ⟨hentry, hname⟩ := List.mem_filter.mp hentry
    exact ⟨of_decide_eq_true hname, hagain entry hentry⟩
  rw [hself]
  exact Dict.ofValues_entries (nodup_membersWithoutFlags h.root.nodup)
    (ne_null_membersWithoutFlags h.nullFree)

/-- **Flags are taken out once.** -/
theorem withoutFlags_again (h : v.WellFormed) :
    withoutFlags (withoutFlags v) = withoutFlags v := by
  induction v using Value.induct with
  | dict d ih =>
    rw [withoutFlags_dict, withoutFlags_dict]
    exact congrArg Value.dict (ofMembers_again h fun entry hentry =>
      ih entry hentry (h.member hentry))
  | list items ih =>
    simp only [withoutFlags, itemsWithoutFlags_eq, List.map_map]
    refine congrArg Value.list (List.map_congr_left fun item hitem => ?_)
    exact ih item hitem (h.item hitem)
  | _ => rfl

/-! ## The decision -/

/-- What the root says by itself: it wants compression unless its flag reads as false. -/
theorem rootFlag_iff : ((root.get? Reserved.compress).bind (flag? hs)).getD true = true ↔
    root.get? Reserved.compress = none ∨ ∃ v, root.get? Reserved.compress = some v ∧
      ((∀ b, ¬ ReadsAs hs v b) ∨ ReadsAs hs v true) := by
  cases root.get? Reserved.compress with
  | none => exact iff_of_true rfl (.inl rfl)
  | some v =>
    have hcases : (flag? hs v).getD true = true ↔
        (∀ b, ¬ ReadsAs hs v b) ∨ ReadsAs hs v true := by
      simp only [← flag?_eq_some_iff]
      cases flag? hs v <;> simp
    simpa using hcases

/-- **Flags are lifted out of a tree.** No dictionary of what is left has a `compress` member, all
else is as it was, and nothing more is taken out of it. A tree is to be compressed if its root does
not refuse it or a dictionary below asks for it; such a dictionary is seen before objects are made
as well. -/
theorem stripFlags_lifts (hs : Handles) (h : (Value.dict root).WellFormed) :
    (∀ d, (Value.dict d).Within (.dict (stripFlags hs root).1) →
      d.get? Reserved.compress = none) ∧
    Stripped (.dict root) (.dict (stripFlags hs root).1) ∧
    (∀ later : Handles, (stripFlags later (stripFlags hs root).1).1 = (stripFlags hs root).1) ∧
    ((stripFlags hs root).2 = true ↔
      (root.get? Reserved.compress = none ∨ ∃ v, root.get? Reserved.compress = some v ∧
        ((∀ b, ¬ ReadsAs hs v b) ∨ ReadsAs hs v true)) ∨
      AsksBelow hs root) ∧
    (AsksBelow hs root → requestsPacking hs root = true) := by
  have hstripped : Stripped (.dict root) (.dict (stripFlags hs root).1) :=
    stripped_ofMembers h fun entry hentry => stripped_withoutFlags (h.member hentry)
  have hdecides : (stripFlags hs root).2 = true ↔
      ((root.get? Reserved.compress).bind (flag? hs)).getD true = true ∨
        membersAsk hs root.entries = true := Bool.or_eq_true_iff
  refine ⟨fun d hd => hstripped.get?_compress (wellFormed_stripFlags hs root) hd, hstripped,
    fun later => ofMembers_again h fun entry hentry => withoutFlags_again (h.member hentry), ?_,
    requestsPacking_of_asksBelow h⟩
  rw [hdecides, rootFlag_iff, membersAsk_iff h]
  -- a root that asks does not refuse
  refine ⟨?_, fun h => h.imp_right .inr⟩
  rintro (hroot | ⟨v, hv, hreads⟩ | hbelow)
  · exact .inl hroot
  · exact .inl (.inr ⟨v, hv, .inr hreads⟩)
  · exact .inr hbelow

/-- A dictionary that asks for compression. -/
def asking : Value := .dict (.ofValues [(Reserved.compress, .string "true")])

/-- The root refuses compression, and a dictionary in a list asks for it; another one would ask
inside a `compress` member. -/
def flagged : Dict Value :=
  .ofValues [(Reserved.compress, .string "false"),
    ("items", .list [.dict (.ofValues [(Reserved.compress, asking), ("x", .bool true)]), asking])]

theorem asksBelow_flagged (hs : Handles) : AsksBelow hs flagged :=
  ⟨_, .tail _ (.head _), by decide, _, .item (.tail _ (.head _)) .self, .string "true", rfl, rfl⟩

theorem wellFormed_flagged : (Value.dict flagged).WellFormed := by
  have hstring (s : String) : (Value.string s).WellFormed := by rintro d ⟨⟩
  have hbool (b : Bool) : (Value.bool b).WellFormed := by rintro d ⟨⟩
  have hasking : asking.WellFormed :=
    Value.wellFormed_ofValues (List.forall_mem_singleton.mpr (hstring _))
  have hlist : (Value.list
      [.dict (.ofValues [(Reserved.compress, asking), ("x", .bool true)]), asking]).WellFormed := by
    have hinner : (Value.dict
        (.ofValues [(Reserved.compress, asking), ("x", .bool true)])).WellFormed :=
      Value.wellFormed_ofValues
        (List.forall_mem_cons.mpr ⟨hasking, List.forall_mem_singleton.mpr (hbool _)⟩)
    exact Value.wellFormed_list
      (List.forall_mem_cons.mpr ⟨hinner, List.forall_mem_singleton.mpr hasking⟩)
  exact Value.wellFormed_ofValues
    (List.forall_mem_cons.mpr ⟨hstring _, List.forall_mem_singleton.mpr hlist⟩)

theorem stripFlags_flagged_lifts :
    (Value.dict flagged).WellFormed ∧ requestsPacking .empty flagged = true ∧
      (stripFlags .empty flagged).2 = true ∧
      (stripFlags .empty flagged).1.get? Reserved.compress = none := by
  obtain ⟨hgone, -, -, hdecides, hseen⟩ := stripFlags_lifts .empty wellFormed_flagged
  exact ⟨wellFormed_flagged, hseen (asksBelow_flagged _), hdecides.mpr (.inr (asksBelow_flagged _)),
    hgone _ .self⟩

end Compile

end ResourceTree
