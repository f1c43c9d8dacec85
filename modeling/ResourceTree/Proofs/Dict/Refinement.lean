import Mathlib.Data.Finmap
import Mathlib.Data.Finset.Sort
import ResourceTree.Proofs.Dict.Entries
import ResourceTree.Proofs.Value.Equality
import ResourceTree.Value.Exchange

/-!
# Dictionaries as finite maps

A dictionary is a finite map of names to values. How its entries are kept, and in which order they
came, is seen in the order of its entries alone.

* `put_eq`, `take_eq`: the reported old values are those that were there;
* `Table`, `Dict.Refines`: the finite map that a dictionary stands for;
* `refines_set`, `refines_erase`, `refines_extend`, `refines_overrideWith`, `refines_mergeUnder`:
  what each change does to it;
* `Dict.Shows`: what a finite map says about all that is seen of a dictionary;
* `Dict.History`, **`Dict.History.Gives.shows_table`**: whatever was done to dictionaries, they show
  the finite map to which the same was done.
-/

namespace ResourceTree

namespace Dict

/-! ## Old values -/

section Exchange

variable {α : Type*} {name : String} {value : α} {entries : List (String × α)} {d : Dict α}

theorem exchangeFlat_eq : exchangeFlat name value entries =
    (entries.lookup name).map fun old => (old, replace name value entries) := by
  induction entries with
  | nil => rfl
  | cons entry rest ih =>
    rw [exchangeFlat, lookup_cons_entry, replace, ih]
    split_ifs
    · rfl
    · rw [Option.map_map]
      rfl

theorem takeFlat_eq : takeFlat name entries =
    (entries.lookup name).map fun old => (old, eraseFlat name entries) := by
  induction entries with
  | nil => rfl
  | cons entry rest ih =>
    rw [takeFlat, lookup_cons_entry, eraseFlat, ih]
    split_ifs
    · cases rest.getLast? <;> rfl
    · rw [Option.map_map]
      rfl

theorem exchange_eq : d.exchange name value = (d.get? name, d.insert name value) := by
  obtain ⟨storage, entries⟩ := d
  cases storage with
  | indexed => rfl
  | flat =>
    simp only [exchange, exchangeFlat_eq, insert, contains, get?]
    cases entries.lookup name <;> rfl

theorem take_eq : d.take name = (d.get? name, d.erase name) := by
  obtain ⟨storage, entries⟩ := d
  cases storage with
  | indexed => rfl
  | flat =>
    simp only [take, takeFlat_eq, erase, get?]
    cases h : entries.lookup name with
    | none => rw [eraseFlat_of_notMem (lookup_eq_none_iff_names.mp h)]; rfl
    | some old => rfl

end Exchange

/-- **The reported old value is the one that was there.** -/
theorem put_eq {d : Dict Value} {name : String} {v : Value} :
    d.put name v = (d.get? name, d.set name v) := by
  cases v <;> first | exact take_eq | exact exchange_eq

end Dict

/-! ## Finite maps -/

/-- A finite map from names to values. -/
abbrev Table := Finmap fun _ : String => Value

namespace Table

/-- Setting a name to null deletes it. -/
def set (t : Table) (name : String) (v : Value) : Table :=
  if v.isNull then t.erase name else t.insert name v

def extend (t : Table) (members : List (String × Value)) : Table :=
  members.foldl (fun t member => t.set member.1 member.2) t

/-- The names in ascending order. -/
def sortedKeys (t : Table) : List String := t.keys.sort

/-- The pairs in ascending order of names. -/
def sorted (t : Table) : List (String × Value) :=
  t.sortedKeys.filterMap fun name => (t.lookup name).map (name, ·)

variable {t u : Table} {name other : String} {v : Value}

theorem lookup_insert : (t.insert name v).lookup other =
    if other = name then some v else t.lookup other := by
  split_ifs with h
  · rw [h, Finmap.lookup_insert]
  · exact Finmap.lookup_insert_of_ne t h

theorem lookup_erase : (t.erase name).lookup other =
    if other = name then none else t.lookup other := by
  split_ifs with h
  · rw [h, Finmap.lookup_erase]
  · exact Finmap.lookup_erase_ne h

theorem lookup_union : (t ∪ u).lookup name = (t.lookup name).or (u.lookup name) := by
  by_cases h : name ∈ t
  · rw [Finmap.lookup_union_left h]
    obtain ⟨v, hv⟩ := Finmap.mem_iff.mp h
    rw [hv, Option.some_or]
  · rw [Finmap.lookup_union_right h, Finmap.lookup_eq_none.mpr h, Option.none_or]

theorem pairwise_sortedKeys : t.sortedKeys.Pairwise (· < ·) := t.keys.sortedLT_sort.pairwise

theorem names_sorted : Dict.names t.sorted = t.sortedKeys := by
  have hmem : ∀ name ∈ t.sortedKeys, ∃ v, t.lookup name = some v := fun name h =>
    Finmap.mem_iff.mp (Finmap.mem_keys.mp ((Finset.mem_sort _).mp h))
  unfold sorted Dict.names
  rw [List.map_filterMap]
  refine (List.filterMap_congr fun name h => ?_).trans List.filterMap_some
  obtain ⟨v, hv⟩ := hmem name h
  rw [hv]
  rfl

theorem lookup_sorted : t.sorted.lookup name = t.lookup name := by
  have hnodup : (Dict.names t.sorted).Nodup := by
    rw [names_sorted]
    exact t.keys.sort_nodup _
  refine Option.ext fun v => ?_
  rw [Dict.lookup_eq_some_iff_mem hnodup, sorted, List.mem_filterMap]
  constructor
  · rintro ⟨found, -, hfound⟩
    obtain ⟨w, hw, heq⟩ := Option.map_eq_some_iff.mp hfound
    cases heq
    exact hw
  · intro hv
    have hkey : name ∈ t.sortedKeys :=
      (Finset.mem_sort _).mpr (Finmap.mem_keys.mpr (Finmap.mem_of_lookup_eq_some hv))
    exact ⟨name, hkey, by rw [hv]; rfl⟩

end Table

namespace Dict

variable {d b : Dict Value} {t u : Table} {name : String} {v : Value}
  {members : List (String × Value)}

/-- **A dictionary stands for a finite map**: it keeps its entries in order, holds no null, is flat
only while it is small, and gives what the map gives. -/
structure Refines (d : Dict Value) (t : Table) : Prop where
  wellFormed : d.WellFormed
  nullFree : d.NullFree
  small : d.storage = .flat → d.size < flatLimit
  get?_eq : ∀ name, d.get? name = t.lookup name

/-! ## Changes -/

theorem size_replace {α : Type*} {value : α} {entries : List (String × α)} :
    (replace name value entries).length = entries.length := by
  have h : names (replace name value entries) = names entries := names_replace
  simpa [names] using congrArg List.length h

theorem small_insert (h : d.storage = .flat → d.size < flatLimit) :
    (d.insert name v).storage = .flat → (d.insert name v).size < flatLimit := by
  obtain ⟨storage, entries⟩ := d
  cases storage with
  | indexed => exact nofun
  | flat =>
    unfold insert
    dsimp only
    split_ifs with hcontains hsize
    · intro _
      exact size_replace.trans_lt (h rfl)
    · exact fun _ => hsize
    · exact nofun

theorem small_erase (h : d.storage = .flat → d.size < flatLimit) :
    (d.erase name).storage = .flat → (d.erase name).size < flatLimit := by
  intro hflat
  have hstorage : d.storage = .flat := by
    obtain ⟨storage, entries⟩ := d
    cases storage with
    | indexed => cases hflat
    | flat => rfl
  exact subperm_erase.length_le.trans_lt (h hstorage)

theorem refines_empty : Refines ∅ ∅ where
  wellFormed := wellFormed_empty
  nullFree := nullFree_empty
  small _ := by decide
  get?_eq name := (Finmap.lookup_empty (β := fun _ : String => Value) name).symm

theorem refines_erase (h : d.Refines t) : (d.erase name).Refines (t.erase name) where
  wellFormed := wellFormed_erase h.wellFormed
  nullFree entry hentry := h.nullFree entry (subperm_erase.subset hentry)
  small := small_erase h.small
  get?_eq other := by rw [get?_erase h.wellFormed, Table.lookup_erase, h.get?_eq]

theorem refines_set (h : d.Refines t) : (d.set name v).Refines (t.set name v) := by
  unfold Table.set
  split_ifs with hv
  · cases v <;> first | exact refines_erase h | cases hv
  · have hne : v ≠ .null := fun he => hv (he ▸ rfl)
    rw [set_of_ne_null hne]
    exact {
      wellFormed := wellFormed_insert h.wellFormed
      nullFree := set_of_ne_null hne ▸ nullFree_set h.wellFormed h.nullFree
      small := small_insert h.small
      get?_eq := fun other => by rw [get?_insert, Table.lookup_insert, h.get?_eq] }

theorem refines_extend (h : d.Refines t) : (d.extend members).Refines (t.extend members) := by
  induction members generalizing d t with
  | nil => exact h
  | cons member rest ih => exact ih (refines_set h)

/-- A run of entries in which no name occurs twice, none is null, and each is a pair of the map. -/
structure Lists (members : List (String × Value)) (u : Table) : Prop where
  nodup : (names members).Nodup
  nullFree : ∀ member ∈ members, member.2 ≠ .null
  lookup_eq : ∀ name, members.lookup name = u.lookup name

/-- The entries of a dictionary, in whatever order they are gone through. -/
theorem Refines.lists (h : b.Refines u) (hp : members.Perm b.entries) : Lists members u where
  nodup := (hp.map Prod.fst).nodup_iff.mpr h.wellFormed.nodup
  nullFree member hm := h.nullFree member (hp.mem_iff.mp hm)
  lookup_eq name := (lookup_perm h.wellFormed.nodup hp.symm).symm.trans (h.get?_eq name)

theorem refines_overrideWith {storage : Storage} (h : d.Refines t) (hm : Lists members u) :
    (d.overrideWith ⟨storage, members⟩).Refines (u ∪ t) where
  wellFormed := wellFormed_extend h.wellFormed
  nullFree := nullFree_extend h.wellFormed h.nullFree
  small := (refines_extend h).small
  get?_eq name := by
    rw [overrideWith, get?_extend hm.nodup hm.nullFree, hm.lookup_eq, h.get?_eq,
      Table.lookup_union]

/-- Adding under a dictionary sets the names that were free before. -/
theorem mergeUnder_eq_extend {storage : Storage} (h : d.WellFormed)
    (hn : (names members).Nodup) : d.mergeUnder ⟨storage, members⟩ =
      d.extend (members.filter fun member => !d.contains member.1) := by
  induction members generalizing d with
  | nil => rfl
  | cons member rest ih =>
    obtain ⟨hmember, hrest⟩ := List.nodup_cons.mp hn
    have hcons : d.mergeUnder ⟨storage, member :: rest⟩ =
        (if d.contains member.1 then d else d.set member.1 member.2).mergeUnder
          ⟨storage, rest⟩ := rfl
    rw [hcons, List.filter_cons]
    by_cases hthere : d.contains member.1 = true
    · rw [if_pos hthere, ih h hrest, if_neg (by simp [hthere])]
    · rw [if_neg hthere, ih (wellFormed_set h) hrest, if_pos (by simp [hthere]), extend_cons]
      refine congrArg _ (List.filter_congr fun other hother => ?_)
      have hne : other.1 ≠ member.1 := fun he => hmember (he ▸ List.mem_map_of_mem hother)
      rw [contains, get?_set_of_ne h hne, contains]

theorem refines_mergeUnder {storage : Storage} (h : d.Refines t) (hm : Lists members u) :
    (d.mergeUnder ⟨storage, members⟩).Refines (t ∪ u) := by
  rw [mergeUnder_eq_extend h.wellFormed hm.nodup]
  let free := members.filter fun member => !d.contains member.1
  have hsub : free.Sublist members := List.filter_sublist
  refine ⟨wellFormed_extend h.wellFormed, nullFree_extend h.wellFormed h.nullFree,
    (refines_extend h).small, fun name => ?_⟩
  rw [get?_extend (hm.nodup.sublist (hsub.map Prod.fst))
    (fun member hmember => hm.nullFree member (hsub.subset hmember)), Table.lookup_union,
    ← h.get?_eq, ← hm.lookup_eq]
  cases hget : d.get? name with
  | none =>
    rw [Option.or_none, Option.none_or]
    exact lookup_filter_names (f := fun name => !d.contains name) (by simp [contains, hget])
  | some v =>
    have hnone : free.lookup name = none := by
      rw [lookup_eq_none_iff_names]
      intro hname
      obtain ⟨member, hmember, rfl⟩ := List.mem_map.mp hname
      have hfree := (List.mem_filter.mp hmember).2
      simp [contains, hget] at hfree
    rw [hnone, Option.none_or, Option.some_or]

/-! ## What is seen -/

/-- **What a finite map says about all that is seen of a dictionary**: its entries are the pairs of
the map, no name twice and none of them null, few while it is flat; what is found, counted, sorted
and reported as an old value is what the map holds. -/
structure Shows (d : Dict Value) (t : Table) : Prop where
  distinct : (names d.entries).Nodup
  nullFree : d.NullFree
  small : d.storage = .flat → d.size < flatLimit
  mem_entries : ∀ name v, (name, v) ∈ d.entries ↔ t.lookup name = some v
  get?_eq : ∀ name, d.get? name = t.lookup name
  contains_iff : ∀ name, d.contains name = true ↔ name ∈ t
  size_eq : d.size = t.keys.card
  sorted_eq : d.sorted = t.sorted
  keys_eq : d.keys = t.sortedKeys
  put_old : ∀ name v, (d.put name v).1 = t.lookup name
  take_old : ∀ name, (d.take name).1 = t.lookup name
  beq_iff : ∀ other : Dict Value, (d == other) = true ↔
    other.size = t.keys.card ∧ ∀ name v, t.lookup name = some v →
      ∃ w, other.get? name = some w ∧ (v == w) = true

theorem Refines.mem_entries (h : d.Refines t) :
    (name, v) ∈ d.entries ↔ t.lookup name = some v := by
  rw [← h.get?_eq, get?_eq_some_iff h.wellFormed]

theorem Refines.keys_eq_toFinset (h : d.Refines t) : t.keys = (names d.entries).toFinset := by
  ext name
  rw [Finmap.mem_keys, ← Finmap.lookup_isSome, ← h.get?_eq, List.mem_toFinset, ← contains_iff,
    contains]

theorem Refines.size_eq (h : d.Refines t) : d.size = t.keys.card := by
  rw [h.keys_eq_toFinset, List.toFinset_card_of_nodup h.wellFormed.nodup, names, List.length_map,
    size]

theorem Refines.sorted_eq (h : d.Refines t) : d.sorted = t.sorted := by
  have hpairwise : (names t.sorted).Pairwise (· < ·) := by
    rw [Table.names_sorted]
    exact Table.pairwise_sortedKeys
  refine eq_of_lookup pairwise_inKeyOrder hpairwise fun name => ?_
  rw [Dict.sorted, lookup_inKeyOrder, Table.lookup_sorted]
  exact h.get?_eq name

/-- A dictionary is equal to another one that has as many entries and gives equal values. -/
theorem Refines.beq_iff (h : d.Refines t) (other : Dict Value) : (d == other) = true ↔
    other.size = t.keys.card ∧ ∀ name v, t.lookup name = some v →
      ∃ w, other.get? name = some w ∧ (v == w) = true := by
  have hiff : (d == other) = true ↔ d.size = other.size ∧ ∀ entry ∈ d.entries,
      ∃ w, other.get? entry.1 = some w ∧ (entry.2 == w) = true := eqUsing_iff
  rw [hiff, h.size_eq, eq_comm]
  refine and_congr_right fun _ => ?_
  rw [Prod.forall]
  exact forall_congr' fun name => forall_congr' fun v => by rw [h.mem_entries]

theorem Refines.shows (h : d.Refines t) : d.Shows t where
  distinct := h.wellFormed.nodup
  nullFree := h.nullFree
  small := h.small
  mem_entries _ _ := h.mem_entries
  get?_eq := h.get?_eq
  contains_iff name := by rw [contains, h.get?_eq, Finmap.lookup_isSome]
  size_eq := h.size_eq
  sorted_eq := h.sorted_eq
  keys_eq := by
    rw [keys, h.sorted_eq]
    exact Table.names_sorted
  put_old name v := by rw [put_eq, h.get?_eq]
  take_old name := by rw [take_eq, h.get?_eq]
  beq_iff := h.beq_iff

/-! ## Histories -/

/-- How a dictionary came about, from others that came about in the same way. -/
inductive History where
  | new
  | set (h : History) (name : String) (v : Value)
  | remove (h : History) (name : String)
  | extend (h : History) (members : List (String × Value))
  | mergeUnder (h base : History)
  | overrideWith (h other : History)
  | merged (base overrides : History)

namespace History

/-- The same done to finite maps. -/
def table : History → Table
  | new => ∅
  | set h name v => h.table.set name v
  | remove h name => h.table.erase name
  | extend h members => h.table.extend members
  | mergeUnder h base => h.table ∪ base.table
  | overrideWith h other => other.table ∪ h.table
  | merged base overrides => overrides.table ∪ base.table

/-- **The dictionaries that a history may give**: the entries of another dictionary are gone through
in any order. -/
inductive Gives : History → Dict Value → Prop where
  | new : Gives new ∅
  | set {h d} (name : String) (v : Value) : Gives h d → Gives (set h name v) (d.put name v).2
  | remove {h d} (name : String) : Gives h d → Gives (remove h name) (d.take name).2
  | extend {h d} (members : List (String × Value)) :
    Gives h d → Gives (extend h members) (d.extend members)
  | mergeUnder {h base d b members} : Gives h d → Gives base b → members.Perm b.entries →
    Gives (mergeUnder h base) (d.mergeUnder ⟨b.storage, members⟩)
  | overrideWith {h other d b members} : Gives h d → Gives other b → members.Perm b.entries →
    Gives (overrideWith h other) (d.overrideWith ⟨b.storage, members⟩)
  | merged {base overrides d b members} : Gives base d → Gives overrides b →
    members.Perm b.entries → Gives (merged base overrides) (Dict.merged d ⟨b.storage, members⟩)

/-- The dictionary that a history gives where entries are gone through as they are kept. -/
def run : History → Dict Value
  | new => ∅
  | set h name v => (h.run.put name v).2
  | remove h name => (h.run.take name).2
  | extend h members => h.run.extend members
  | mergeUnder h base => h.run.mergeUnder base.run
  | overrideWith h other => h.run.overrideWith other.run
  | merged base overrides => Dict.merged base.run overrides.run

theorem gives_run (h : History) : h.Gives h.run := by
  induction h with
  | new => exact .new
  | set h name v ih => exact .set name v ih
  | remove h name ih => exact .remove name ih
  | extend h members ih => exact .extend members ih
  | mergeUnder h base ih ihb => exact .mergeUnder ih ihb (.refl _)
  | overrideWith h other ih ihb => exact .overrideWith ih ihb (.refl _)
  | merged base overrides ih ihb => exact .merged ih ihb (.refl _)

variable {h : History} {d : Dict Value}

theorem Gives.refines (hd : h.Gives d) : d.Refines h.table := by
  induction hd with
  | new => exact refines_empty
  | set name v _ ih => rw [put_eq]; exact refines_set ih
  | remove name _ ih => rw [take_eq]; exact refines_erase ih
  | extend members _ ih => exact refines_extend ih
  | mergeUnder _ _ hp ih ihb => exact refines_mergeUnder ih (ihb.lists hp)
  | overrideWith _ _ hp ih ihb => exact refines_overrideWith ih (ihb.lists hp)
  | merged _ _ hp ih ihb => exact refines_overrideWith ih (ihb.lists hp)

/-- **Whatever was done to dictionaries, they show the finite map to which the same was done.** -/
theorem Gives.shows_table (hd : h.Gives d) : d.Shows h.table := hd.refines.shows

/-- Sixteen names are set, all but one of them to null again, and others are added under what is
left. -/
def shrunk : History :=
  let names := (List.range 16).map fun i => String.singleton (Char.ofNat (97 + i))
  mergeUnder
    (extend (extend new (names.map fun name => (name, .bool true)))
      (names.tail.map fun name => (name, .null)))
    (set (set new "a" (.bool false)) "q" (.bool false))

theorem shows_shrunk : shrunk.run.storage = .indexed ∧ shrunk.run.keys = ["a", "q"] ∧
    shrunk.run.Shows shrunk.table :=
  ⟨by decide +kernel, by decide +kernel, (gives_run shrunk).shows_table⟩

end History

end Dict

end ResourceTree
