import Mathlib.Data.List.Perm.Subperm
import ResourceTree.Proofs.Dict.Lookup

/-!
# Entries — what a change does to the run of entries

The order of the entries of a flat dictionary depends on its history, so the entries after a change
are stated up to order: setting a name adds one entry and may drop one, and nothing else.

* **`inKeyOrder_perm`**, `mem_inKeyOrder_iff`, `inKeyOrder_eq_of_perm`, `inKeyOrder_of_pairwise`:
  key order forgets the order of entries with different names;
* `inKeyOrder_map`: key order depends on the names alone;
* `inKeyOrder_insert`, `entries_ofValues`: entries that are in key order stay so;
* **`subperm_set`**, **`perm_set`**, `subperm_ofValues`, `perm_ofValues`: the entries of a
  dictionary that was built by setting names in turn;
* `subperm_erase`, `perm_erase`: the entries that are left without one;
* `get?_extend`, `get?_ofValues`, `get?_merged`: what is found after names were set in turn;
* `Dict.NullFree`: no entry is null.
-/

namespace ResourceTree

namespace Dict

open List (Perm Subperm Pairwise)

variable {α β : Type*} {name : String} {value : α} {entries other : List (String × α)} {d : Dict α}

@[simp] theorem names_append : names (entries ++ other) = names entries ++ names other :=
  List.map_append

@[simp] theorem names_map (f : α → β) : names (entries.map (Prod.map id f)) = names entries := by
  simp [names]

/-! ## Key order -/

theorem insertSorted_map (f : α → β) :
    insertSorted name (f value) (entries.map (Prod.map id f)) =
      (insertSorted name value entries).map (Prod.map id f) := by
  induction entries with
  | nil => rfl
  | cons entry rest ih =>
    simp only [List.map_cons, insertSorted, Prod.map_fst, id, ih]
    split_ifs <;> rfl

theorem inKeyOrder_map (f : α → β) :
    inKeyOrder (entries.map (Prod.map id f)) = (inKeyOrder entries).map (Prod.map id f) := by
  induction entries with
  | nil => rfl
  | cons entry rest ih =>
    have h : inKeyOrder ((entry :: rest).map (Prod.map id f)) =
        insertSorted entry.1 (f entry.2) (inKeyOrder (rest.map (Prod.map id f))) := rfl
    rw [h, ih, insertSorted_map]
    rfl

theorem insertSorted_perm (h : name ∉ names entries) :
    (insertSorted name value entries).Perm ((name, value) :: entries) := by
  induction entries with
  | nil => exact Perm.refl _
  | cons entry rest ih =>
    rw [names_cons, List.mem_cons, not_or] at h
    simp only [insertSorted, if_neg h.1]
    split_ifs
    · exact Perm.refl _
    · exact ((ih h.2).cons entry).trans (Perm.swap _ _ _)

/-- **Key order rearranges entries with different names.** -/
theorem inKeyOrder_perm (h : (names entries).Nodup) : (inKeyOrder entries).Perm entries := by
  induction entries with
  | nil => exact Perm.refl _
  | cons entry rest ih =>
    obtain ⟨hne, hrest⟩ := List.nodup_cons.mp h
    have hne' : entry.1 ∉ names (inKeyOrder rest) := by
      rwa [names, ((ih hrest).map Prod.fst).mem_iff]
    exact (insertSorted_perm hne').trans ((ih hrest).cons entry)

theorem mem_inKeyOrder_iff (h : d.WellFormed) {entry : String × α} :
    entry ∈ inKeyOrder d.entries ↔ d.get? entry.1 = some entry.2 :=
  (inKeyOrder_perm h.nodup).mem_iff.trans (get?_eq_some_iff h).symm

/-- Two runs in key order with the same entries are the same. -/
theorem eq_of_perm (h : (names entries).Pairwise (· < ·)) (h' : (names other).Pairwise (· < ·))
    (hp : entries.Perm other) : entries = other :=
  Perm.eq_of_pairwise (fun _ _ _ _ hab hba => absurd hab (lt_asymm hba))
    (List.pairwise_map.mp h) (List.pairwise_map.mp h') hp

theorem inKeyOrder_eq_of_perm (h : (names entries).Nodup) (hp : entries.Perm other) :
    inKeyOrder entries = inKeyOrder other := by
  have h' : (names other).Nodup := (hp.map Prod.fst).nodup_iff.mp h
  exact eq_of_perm pairwise_inKeyOrder pairwise_inKeyOrder
    ((inKeyOrder_perm h).trans (hp.trans (inKeyOrder_perm h').symm))

theorem inKeyOrder_of_pairwise (h : (names entries).Pairwise (· < ·)) :
    inKeyOrder entries = entries :=
  eq_of_perm pairwise_inKeyOrder h (inKeyOrder_perm (h.imp fun hlt => ne_of_lt hlt))

theorem inKeyOrder_filter (h : (names entries).Nodup) (keep : String × α → Bool) :
    inKeyOrder (entries.filter keep) = (inKeyOrder entries).filter keep := by
  have hnodup : (names (entries.filter keep)).Nodup := h.sublist (List.filter_sublist.map Prod.fst)
  exact eq_of_perm pairwise_inKeyOrder
    (pairwise_inKeyOrder.sublist (List.filter_sublist.map Prod.fst))
    ((inKeyOrder_perm hnodup).trans ((inKeyOrder_perm h).filter keep).symm)

/-! ## Setting and removing -/

theorem insertSorted_subperm :
    (insertSorted name value entries).Subperm ((name, value) :: entries) := by
  induction entries with
  | nil => exact Subperm.refl _
  | cons entry rest ih =>
    simp only [insertSorted]
    split_ifs
    · exact ((List.sublist_cons_self entry rest).cons_cons _).subperm
    · exact Subperm.refl _
    · exact ((List.subperm_cons entry).mpr ih).trans (Perm.swap _ _ _).subperm

theorem inKeyOrder_subset : inKeyOrder entries ⊆ entries := by
  induction entries with
  | nil => exact List.Subset.refl _
  | cons entry rest ih =>
    intro e he
    exact (List.mem_cons.mp (insertSorted_subperm.subset he)).elim
      (fun heq => heq ▸ List.mem_cons_self) fun hrest => List.mem_cons_of_mem _ (ih hrest)

theorem replace_subperm : (replace name value entries).Subperm ((name, value) :: entries) := by
  induction entries with
  | nil => exact List.nil_subperm
  | cons entry rest ih =>
    simp only [replace]
    split_ifs with h
    · subst h
      exact ((List.sublist_cons_self entry rest).cons_cons _).subperm
    · exact ((List.subperm_cons entry).mpr ih).trans (Perm.swap _ _ _).subperm

theorem inKeyOrder_concat_perm (h : (names entries).Nodup) (hn : name ∉ names entries) :
    (inKeyOrder (entries ++ [(name, value)])).Perm ((name, value) :: entries) := by
  have hcat : (entries ++ [(name, value)]).Perm ((name, value) :: entries) :=
    List.perm_append_singleton _ _
  have hnodup : (names ((name, value) :: entries)).Nodup := List.nodup_cons.mpr ⟨hn, h⟩
  exact (inKeyOrder_perm ((hcat.map Prod.fst).nodup_iff.mpr hnodup)).trans hcat

theorem subperm_insert (h : d.WellFormed) :
    (d.insert name value).entries.Subperm ((name, value) :: d.entries) := by
  obtain ⟨storage, entries⟩ := d
  cases storage with
  | indexed => exact insertSorted_subperm
  | flat =>
    simp only [insert, contains_iff]
    split_ifs with hn hl
    · exact replace_subperm
    · exact (List.perm_append_singleton _ _).subperm
    · exact (inKeyOrder_concat_perm h.nodup hn).subperm

theorem perm_insert (h : d.WellFormed) (hn : name ∉ names d.entries) :
    (d.insert name value).entries.Perm ((name, value) :: d.entries) := by
  refine (subperm_insert h).perm_of_length_le ?_
  obtain ⟨storage, entries⟩ := d
  cases storage with
  | indexed => exact (insertSorted_perm hn).length_eq.ge
  | flat =>
    simp only [insert, contains_iff, if_neg hn]
    split_ifs
    · exact (List.perm_append_singleton _ _).length_eq.ge
    · exact (inKeyOrder_concat_perm h.nodup hn).length_eq.ge

theorem subperm_erase : (d.erase name).entries.Subperm d.entries := by
  obtain ⟨storage, entries⟩ := d
  cases storage with
  | indexed => exact List.filter_sublist.subperm
  | flat =>
    by_cases hm : name ∈ names entries
    · obtain ⟨v, hp⟩ := perm_eraseFlat hm
      exact (List.sublist_cons_self _ _).subperm.trans hp.subperm
    · simp only [erase, eraseFlat_of_notMem hm, Subperm.refl]

theorem eq_of_lookup (h : (names entries).Pairwise (· < ·)) (h' : (names other).Pairwise (· < ·))
    (hlookup : ∀ name, entries.lookup name = other.lookup name) : entries = other := by
  have hnodup : (names entries).Nodup := h.imp fun hlt => ne_of_lt hlt
  have hnodup' : (names other).Nodup := h'.imp fun hlt => ne_of_lt hlt
  refine eq_of_perm h h' ((List.perm_ext_iff_of_nodup hnodup.of_map hnodup'.of_map).mpr ?_)
  rintro ⟨name, v⟩
  rw [← lookup_eq_some_iff_mem hnodup, ← lookup_eq_some_iff_mem hnodup', hlookup]

theorem inKeyOrder_insert :
    inKeyOrder (d.insert name value).entries = insertSorted name value (inKeyOrder d.entries) := by
  refine eq_of_lookup pairwise_inKeyOrder (pairwise_insertSorted pairwise_inKeyOrder) fun key => ?_
  rw [lookup_inKeyOrder, lookup_insertSorted, lookup_inKeyOrder]
  exact get?_insert

/-! ## Null removes -/

variable {d : Dict Value} {v : Value} {members : List (String × Value)}

/-- No entry is null. -/
def NullFree (d : Dict Value) : Prop := ∀ entry ∈ d.entries, entry.2 ≠ .null

theorem set_of_ne_null (hv : v ≠ .null) : d.set name v = d.insert name v := by
  cases v <;> first | rfl | exact absurd rfl hv

/-- **Setting a name adds at most one entry.** -/
theorem subperm_set (h : d.WellFormed) :
    (d.set name v).entries.Subperm ((name, v) :: d.entries) := by
  by_cases hv : v = .null
  · subst hv
    exact subperm_erase.trans (List.sublist_cons_self _ _).subperm
  · rw [set_of_ne_null hv]
    exact subperm_insert h

/-- **Setting a free name to a value that is not null adds one entry.** -/
theorem perm_set (h : d.WellFormed) (hn : name ∉ names d.entries) (hv : v ≠ .null) :
    (d.set name v).entries.Perm ((name, v) :: d.entries) := by
  rw [set_of_ne_null hv]
  exact perm_insert h hn

@[simp] theorem entries_empty : (∅ : Dict α).entries = [] := rfl

theorem nullFree_empty : NullFree ∅ := fun _ h => nomatch h

theorem nullFree_set (h : d.WellFormed) (hd : d.NullFree) : (d.set name v).NullFree := by
  intro entry hentry
  by_cases hv : v = .null
  · subst hv
    exact hd entry (subperm_erase.subset hentry)
  · rcases List.mem_cons.mp ((subperm_set h).subset hentry) with rfl | hmem
    · exact hv
    · exact hd entry hmem

/-! ## Setting names in turn -/

@[simp] theorem extend_nil : d.extend [] = d := rfl

@[simp] theorem extend_cons (member : String × Value) :
    d.extend (member :: members) = (d.set member.1 member.2).extend members := rfl

theorem wellFormed_extend (h : d.WellFormed) : (d.extend members).WellFormed := by
  induction members generalizing d with
  | nil => exact h
  | cons member rest ih => exact ih (wellFormed_set h)

theorem nullFree_extend (h : d.WellFormed) (hd : d.NullFree) : (d.extend members).NullFree := by
  induction members generalizing d with
  | nil => exact hd
  | cons member rest ih => exact ih (wellFormed_set h) (nullFree_set h hd)

theorem subperm_extend (h : d.WellFormed) :
    (d.extend members).entries.Subperm (members ++ d.entries) := by
  induction members generalizing d with
  | nil => exact Subperm.refl _
  | cons member rest ih =>
    refine (ih (wellFormed_set h)).trans ?_
    refine ((List.subperm_append_left rest).mpr (subperm_set h)).trans ?_
    exact List.perm_middle.subperm

theorem perm_extend (h : d.WellFormed) (hn : (names (members ++ d.entries)).Nodup)
    (hv : ∀ member ∈ members, member.2 ≠ .null) :
    (d.extend members).entries.Perm (members ++ d.entries) := by
  induction members generalizing d with
  | nil => exact Perm.refl _
  | cons member rest ih =>
    have hfree : member.1 ∉ names d.entries := by
      rw [List.cons_append, names_cons, List.nodup_cons, names_append, List.mem_append] at hn
      exact fun hm => hn.1 (.inr hm)
    have hset : (d.set member.1 member.2).entries.Perm (member :: d.entries) :=
      perm_set h hfree (hv member List.mem_cons_self)
    have hmid : (rest ++ (d.set member.1 member.2).entries).Perm (member :: rest ++ d.entries) :=
      (hset.append_left rest).trans List.perm_middle
    refine (ih (wellFormed_set h) ?_ fun m hm => hv m (List.mem_cons_of_mem _ hm)).trans hmid
    exact (hmid.map Prod.fst).nodup_iff.mpr hn

theorem wellFormed_ofValues : (ofValues members).WellFormed := wellFormed_extend wellFormed_empty

theorem nullFree_ofValues : (ofValues members).NullFree :=
  nullFree_extend wellFormed_empty nullFree_empty

/-- **No entry comes from nowhere.** -/
theorem subperm_ofValues : (ofValues members).entries.Subperm members := by
  have h : (extend ∅ members).entries.Subperm (members ++ (∅ : Dict Value).entries) :=
    subperm_extend wellFormed_empty
  rwa [entries_empty, List.append_nil] at h

/-- **Different names and no null: nothing is lost.** -/
theorem perm_ofValues (hn : (names members).Nodup) (hv : ∀ member ∈ members, member.2 ≠ .null) :
    (ofValues members).entries.Perm members := by
  have h : (extend ∅ members).entries.Perm (members ++ (∅ : Dict Value).entries) :=
    perm_extend wellFormed_empty (by rwa [entries_empty, List.append_nil]) hv
  rwa [entries_empty, List.append_nil] at h

/-- Setting a name past all others adds an entry at the end. -/
theorem entries_insert_of_pairwise {α : Type*} {d : Dict α} {value : α} {name : String}
    (h : (names (d.entries ++ [(name, value)])).Pairwise (· < ·)) :
    (d.insert name value).entries = d.entries ++ [(name, value)] := by
  obtain ⟨hd, -, hlast⟩ := List.pairwise_append.mp (names_append ▸ h)
  have hlt : ∀ key ∈ names d.entries, key < name := fun key hkey => hlast key hkey name (by simp)
  obtain ⟨storage, entries⟩ := d
  cases storage with
  | indexed =>
    refine eq_of_lookup (pairwise_insertSorted hd) h fun key => ?_
    show (insertSorted name value entries).lookup key = (entries ++ [(name, value)]).lookup key
    rw [lookup_insertSorted, List.lookup_append, lookup_cons_entry]
    split_ifs with hkey
    · subst hkey
      rw [lookup_eq_none_iff_names.mpr fun hm => lt_irrefl _ (hlt _ hm), Option.none_or]
    · rw [List.lookup_nil, Option.or_none]
  | flat =>
    have hfree : ¬ (⟨.flat, entries⟩ : Dict α).contains name = true := fun hm =>
      lt_irrefl _ (hlt _ (contains_iff.mp hm))
    simp only [insert, if_neg hfree]
    split_ifs
    · rfl
    · exact inKeyOrder_of_pairwise h

/-- **Names that are set in key order stay in this order.** -/
theorem entries_extend (h : (names (d.entries ++ members)).Pairwise (· < ·))
    (hv : ∀ member ∈ members, member.2 ≠ .null) :
    (d.extend members).entries = d.entries ++ members := by
  induction members generalizing d with
  | nil => exact (List.append_nil _).symm
  | cons member rest ih =>
    have hassoc : d.entries ++ member :: rest = (d.entries ++ [member]) ++ rest := by simp
    rw [hassoc] at h ⊢
    have hset : (d.set member.1 member.2).entries = d.entries ++ [member] := by
      rw [set_of_ne_null (hv member List.mem_cons_self)]
      rw [names_append] at h
      exact entries_insert_of_pairwise (List.pairwise_append.mp h).1
    rw [extend_cons, ih (hset ▸ h) fun m hm => hv m (List.mem_cons_of_mem _ hm), hset]

theorem entries_ofValues (h : (names members).Pairwise (· < ·))
    (hv : ∀ member ∈ members, member.2 ≠ .null) : (ofValues members).entries = members :=
  entries_extend (d := ∅) h hv

theorem erase_of_notMem {α : Type*} {d : Dict α} {name : String} (h : name ∉ names d.entries) :
    d.erase name = d := by
  obtain ⟨storage, entries⟩ := d
  cases storage with
  | flat => exact congrArg (Dict.mk .flat) (eraseFlat_of_notMem h)
  | indexed =>
    refine congrArg (Dict.mk .indexed) (List.filter_eq_self.mpr fun entry hentry => ?_)
    exact decide_eq_true fun heq => h (heq ▸ List.mem_map_of_mem hentry)

theorem isNull_eq_false_iff : v.isNull = false ↔ v ≠ .null := by
  cases v <;> simp [Value.isNull]

/-- Where all names are different, setting some of them to null changes nothing. -/
theorem extend_filter_null (h : d.WellFormed) (hn : (names (members ++ d.entries)).Nodup) :
    d.extend (members.filter fun member => !member.2.isNull) = d.extend members := by
  induction members generalizing d with
  | nil => rfl
  | cons member rest ih =>
    obtain ⟨hmember, hrest⟩ := List.nodup_cons.mp hn
    have hfree : member.1 ∉ names d.entries := fun hm => hmember <| by
      show member.1 ∈ names (rest ++ d.entries)
      rw [names_append]
      exact List.mem_append_right _ hm
    rw [List.filter_cons, extend_cons]
    by_cases hv : member.2 = .null
    · have hset : d.set member.1 member.2 = d := by
        rw [hv]
        exact erase_of_notMem hfree
      rw [if_neg (by simp [hv, Value.isNull]), hset]
      exact ih h hrest
    · have hmid := ((perm_set h hfree hv).append_left rest).trans List.perm_middle
      rw [if_pos (by simp [isNull_eq_false_iff.mpr hv]), extend_cons]
      exact ih (wellFormed_set h) ((hmid.map Prod.fst).nodup_iff.mpr hn)

/-! ### Names that were set -/

theorem lookup_filter_names {f : String → Bool} (h : f name = true) :
    (entries.filter fun entry => f entry.1).lookup name = entries.lookup name := by
  induction entries with
  | nil => rfl
  | cons entry rest ih =>
    rw [List.filter_cons, lookup_cons_entry]
    by_cases hname : name = entry.1
    · rw [if_pos (hname ▸ h), lookup_cons_entry, if_pos hname, if_pos hname]
    · rw [if_neg hname, ← ih]
      split_ifs
      · rw [lookup_cons_entry, if_neg hname]
      · rfl

/-- **Names that are set in turn**: what they are set to is found, and else what was there. -/
theorem get?_extend (hn : (names members).Nodup) (hv : ∀ member ∈ members, member.2 ≠ .null) :
    (d.extend members).get? name = (members.lookup name).or (d.get? name) := by
  induction members generalizing d with
  | nil => rfl
  | cons member rest ih =>
    obtain ⟨hmember, hrest⟩ := List.nodup_cons.mp hn
    obtain ⟨hv, hvs⟩ := List.forall_mem_cons.mp hv
    rw [extend_cons, ih hrest hvs, set_of_ne_null hv, get?_insert, lookup_cons_entry]
    by_cases hname : name = member.1
    · rw [if_pos hname, if_pos hname, lookup_eq_none_iff_names.mpr (hname ▸ hmember)]
      rfl
    · rw [if_neg hname, if_neg hname]

theorem get?_ofValues (hn : (names members).Nodup) (hv : ∀ member ∈ members, member.2 ≠ .null) :
    (ofValues members).get? name = members.lookup name :=
  (get?_extend (d := ∅) hn hv).trans (Option.or_none ..)

theorem get?_merged {base : Dict Value} (h : d.WellFormed) (hd : d.NullFree) :
    (merged base d).get? name = (d.get? name).or (base.get? name) := get?_extend h.nodup hd

end Dict

end ResourceTree
