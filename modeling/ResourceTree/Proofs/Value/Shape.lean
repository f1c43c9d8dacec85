import ResourceTree.Proofs.Dict.Entries

/-!
# The shape of values — what lies inside, and how deep

* `Value.induct`: induction on a value, over the members of dictionaries and the items of lists;
* `Value.Within`: a value occurs in another one;
* **`Value.WellFormed`**: every dictionary inside is well formed and holds no null;
* `Value.Lifeless`: no live object inside;
* **`Dict.depth`**, `Value.depth`: how deep the deepest dictionary or value lies.
-/

namespace ResourceTree

namespace Value

/-- **Induction on values.** -/
theorem induct {P : Value → Prop} (null : P .null) (bool : ∀ b, P (.bool b))
    (number : ∀ n, P (.number n)) (string : ∀ s, P (.string s))
    (binary : ∀ bytes, P (.binary bytes))
    (dict : ∀ d : Dict Value, (∀ entry ∈ d.entries, P entry.2) → P (.dict d))
    (list : ∀ items, (∀ item ∈ items, P item) → P (.list items))
    (object : ∀ ref, P (.object ref)) (packed : ∀ payload, P (.packed payload))
    (resource : ∀ handle, P (.resource handle)) (v : Value) : P v :=
  @Value.rec P (fun d => ∀ entry ∈ d.entries, P entry.2) (fun items => ∀ item ∈ items, P item)
    (fun entries => ∀ entry ∈ entries, P entry.2) (fun entry => P entry.2)
    null bool number string binary dict list object packed resource
    (fun _ _ ih => ih)
    (fun _ h => nomatch h) (fun _ _ hv hvs => List.forall_mem_cons.mpr ⟨hv, hvs⟩)
    (fun _ h => nomatch h) (fun _ _ he hes => List.forall_mem_cons.mpr ⟨he, hes⟩)
    (fun _ _ hv => hv) v

/-! ## Parts -/

/-- A value is another one or occurs in it. What is packed does not occur. -/
inductive Within : Value → Value → Prop where
  | self {v : Value} : Within v v
  | member {x : Value} {d : Dict Value} {entry : String × Value} :
      entry ∈ d.entries → Within x entry.2 → Within x (.dict d)
  | item {x : Value} {items : List Value} {v : Value} :
      v ∈ items → Within x v → Within x (.list items)

theorem Within.trans {u v w : Value} (huv : Within u v) (hvw : Within v w) : Within u w := by
  induction hvw with
  | self => exact huv
  | member hentry _ ih => exact .member hentry ih
  | item hitem _ ih => exact .item hitem ih

/-- Every dictionary inside is well formed and holds no null: setting names never builds
another. -/
def WellFormed (v : Value) : Prop := ∀ d, Within (.dict d) v → d.WellFormed ∧ d.NullFree

/-- There is no live object inside. -/
def Lifeless (v : Value) : Prop := ∀ ref, ¬ Within (.object ref) v

variable {v : Value} {d : Dict Value} {items : List Value}

theorem within_leaf {x : Value} (hdict : ∀ d, v ≠ .dict d) (hlist : ∀ items, v ≠ .list items)
    (h : Within x v) : x = v := by
  cases h with
  | self => rfl
  | member => exact absurd rfl (hdict _)
  | item => exact absurd rfl (hlist _)

theorem wellFormed_leaf (hdict : ∀ d, v ≠ .dict d) (hlist : ∀ items, v ≠ .list items) :
    v.WellFormed := fun d hd => absurd (within_leaf hdict hlist hd).symm (hdict d)

theorem WellFormed.root (h : WellFormed (.dict d)) : d.WellFormed := (h d .self).1

theorem WellFormed.nullFree (h : WellFormed (.dict d)) : d.NullFree := (h d .self).2

theorem WellFormed.member (h : WellFormed (.dict d)) {entry : String × Value}
    (hentry : entry ∈ d.entries) : entry.2.WellFormed := fun d' hd' => h d' (.member hentry hd')

theorem WellFormed.item (h : WellFormed (.list items)) {v : Value} (hv : v ∈ items) :
    v.WellFormed := fun d' hd' => h d' (.item hv hd')

theorem wellFormed_dict (h : d.WellFormed) (hn : d.NullFree)
    (hm : ∀ entry ∈ d.entries, entry.2.WellFormed) : WellFormed (.dict d) := by
  rintro d' (_ | ⟨hentry, hd'⟩)
  · exact ⟨h, hn⟩
  · exact hm _ hentry d' hd'

theorem wellFormed_list (h : ∀ item ∈ items, item.WellFormed) : WellFormed (.list items) := by
  rintro d' (_ | _ | ⟨hitem, hd'⟩)
  exact h _ hitem d' hd'

theorem wellFormed_set {name : String} {v : Value} (h : WellFormed (.dict d)) (hv : v.WellFormed) :
    WellFormed (.dict (d.set name v)) := by
  refine wellFormed_dict (Dict.wellFormed_set h.root) (Dict.nullFree_set h.root h.nullFree)
    fun entry hentry => ?_
  rcases List.mem_cons.mp ((Dict.subperm_set h.root).subset hentry) with rfl | hmem
  · exact hv
  · exact h.member hmem

/-- Names that are set to well-formed values. -/
theorem wellFormed_ofValues {members : List (String × Value)}
    (h : ∀ member ∈ members, member.2.WellFormed) : WellFormed (.dict (Dict.ofValues members)) :=
  wellFormed_dict Dict.wellFormed_ofValues Dict.nullFree_ofValues fun entry hentry =>
    h entry (Dict.subperm_ofValues.subset hentry)

theorem lifeless_dict : Lifeless (.dict d) ↔ ∀ entry ∈ d.entries, entry.2.Lifeless := by
  refine ⟨fun h entry hentry ref hw => h ref (.member hentry hw), ?_⟩
  rintro h ref (_ | ⟨hentry, hw⟩)
  exact h _ hentry ref hw

theorem lifeless_set {name : String} {v : Value} (h : d.WellFormed) (hd : Lifeless (.dict d))
    (hv : v.Lifeless) : Lifeless (.dict (d.set name v)) := by
  refine lifeless_dict.mpr fun entry hentry => ?_
  rcases List.mem_cons.mp ((Dict.subperm_set h).subset hentry) with rfl | hmem
  · exact hv
  · exact lifeless_dict.mp hd entry hmem

theorem lifeless_list : Lifeless (.list items) ↔ ∀ item ∈ items, item.Lifeless := by
  refine ⟨fun h item hitem ref hw => h ref (.item hitem hw), ?_⟩
  rintro h ref (_ | _ | ⟨hitem, hw⟩)
  exact h _ hitem ref hw

theorem not_lifeless_object {ref : ObjectRef} : ¬ Lifeless (.object ref) := fun h => h ref .self

/-! ## Depth -/

mutual

/-- How deep the deepest dictionary or value inside lies, below the value itself: a dictionary and
an item lie one deeper than the value that holds them, a member one deeper than its dictionary. -/
def depth : Value → Nat
  | .dict ⟨_, entries⟩ => membersDepth entries + 1
  | .list items => itemsDepth items
  | _ => 0

/-- How deep the members lie below their dictionary. -/
def membersDepth : List (String × Value) → Nat
  | [] => 0
  | (_, value) :: rest => max (value.depth + 1) (membersDepth rest)

def itemsDepth : List Value → Nat
  | [] => 0
  | item :: rest => max (item.depth + 1) (itemsDepth rest)

end

theorem membersDepth_le {entries : List (String × Value)} {n : Nat} :
    membersDepth entries ≤ n ↔ ∀ entry ∈ entries, entry.2.depth + 1 ≤ n := by
  induction entries with
  | nil => simp [membersDepth]
  | cons entry rest ih => simp [membersDepth, ih]

theorem itemsDepth_le {n : Nat} : itemsDepth items ≤ n ↔ ∀ item ∈ items, item.depth + 1 ≤ n := by
  induction items with
  | nil => simp [itemsDepth]
  | cons item rest ih => simp [itemsDepth, ih]

end Value

/-- **How deep the deepest dictionary or value of a dictionary lies**; the dictionary itself has
depth 0. -/
def Dict.depth (d : Dict Value) : Nat := Value.membersDepth d.entries

@[simp] theorem Value.depth_dict (d : Dict Value) : (Value.dict d).depth = d.depth + 1 := rfl

theorem Value.depth_member {d : Dict Value} {entry : String × Value} (h : entry ∈ d.entries) :
    entry.2.depth < (Value.dict d).depth :=
  (membersDepth_le.mp (Nat.le_refl d.depth) entry h).trans (Nat.le_succ d.depth)

theorem Value.depth_item {items : List Value} {item : Value} (h : item ∈ items) :
    item.depth < (Value.list items).depth :=
  itemsDepth_le.mp (Nat.le_refl (itemsDepth items)) item h

end ResourceTree
