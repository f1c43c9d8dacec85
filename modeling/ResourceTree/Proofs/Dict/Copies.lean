import Mathlib.Data.List.Induction
import ResourceTree.Proofs.Dict.Entries

/-!
# Copies — dictionaries whose names were set in turn

A dictionary whose names are set in turn, no name twice and none to null, is flat in the order of
the names as long as it is small, and indexed in key order from then on. So it is its own copy: its
names, set in turn again, give the same dictionary, which one that has shrunk does not.

* **`ofValues_eq`**: what setting names in turn gives;
* `ofValues_entries`: a copy is its own copy;
* `Tidy`, **`Tidy.eq_of_get?`**: dictionaries whose names were set in key order.
-/

namespace ResourceTree

namespace Dict

variable {members : List (String × Value)}

/-- **What setting names in turn gives.** -/
theorem ofValues_eq (hn : (names members).Nodup) (hv : ∀ member ∈ members, member.2 ≠ .null) :
    ofValues members = if members.length < flatLimit then ⟨.flat, members⟩
      else ⟨.indexed, inKeyOrder members⟩ := by
  induction members using List.reverseRecOn with
  | nil => rfl
  | append_singleton members member ih =>
    rw [names_append, List.nodup_append'] at hn
    obtain ⟨hn, -, hdisjoint⟩ := hn
    rw [List.forall_mem_append, List.forall_mem_singleton] at hv
    have hfree : member.1 ∉ names members := fun hm => hdisjoint hm (by simp)
    have hset : ofValues (members ++ [member]) = (ofValues members).insert member.1 member.2 := by
      rw [ofValues, List.foldl_append, ← set_of_ne_null hv.2]
      rfl
    rw [hset, ih hn hv.1]
    by_cases hsmall : members.length < flatLimit
    · have habsent : ¬ (⟨.flat, members⟩ : Dict Value).contains member.1 = true :=
        fun h => hfree (contains_iff.mp h)
      rw [if_pos hsmall]
      simp only [insert, if_neg habsent]
    · have hlarge : ¬ (members ++ [member]).length < flatLimit := fun h =>
        hsmall (lt_of_le_of_lt (by simp) h)
      have hlookup : ∀ key, (insertSorted member.1 member.2 (inKeyOrder members)).lookup key =
          (inKeyOrder (members ++ [member])).lookup key := by
        intro key
        rw [lookup_insertSorted, lookup_inKeyOrder, lookup_inKeyOrder, List.lookup_append,
          lookup_cons_entry, List.lookup_nil]
        split_ifs with hkey
        · rw [hkey, lookup_eq_none_iff_names.mpr hfree, Option.none_or]
        · rw [Option.or_none]
      rw [if_neg hsmall, if_neg hlarge]
      exact congrArg (Dict.mk .indexed)
        (eq_of_lookup (pairwise_insertSorted pairwise_inKeyOrder) pairwise_inKeyOrder hlookup)

/-- **A copy is its own copy.** -/
theorem ofValues_entries (hn : (names members).Nodup) (hv : ∀ member ∈ members, member.2 ≠ .null) :
    ofValues (ofValues members).entries = ofValues members := by
  rw [ofValues_eq hn hv]
  split_ifs with hsmall
  · exact (ofValues_eq hn hv).trans (if_pos hsmall)
  · have hperm := inKeyOrder_perm hn
    have hlarge : ¬ (inKeyOrder members).length < flatLimit := hperm.length_eq ▸ hsmall
    rw [ofValues_eq ((hperm.map Prod.fst).nodup_iff.mpr hn) fun m hm => hv m (hperm.subset hm),
      if_neg hlarge, inKeyOrder_of_pairwise pairwise_inKeyOrder]

/-! ## Names that were set in key order -/

/-- **A dictionary whose names were set in key order**: its entries stand in this order, and it is
flat only as long as it is small. -/
structure Tidy {α : Type*} (d : Dict α) : Prop where
  ordered : (names d.entries).Pairwise (· < ·)
  storage_eq : d.storage = if d.size < flatLimit then .flat else .indexed

section Tidy

variable {α : Type*} {d other : Dict α} {name : String} {value : α} {entries : List (String × α)}

theorem tidy_ofValues (h : (names members).Pairwise (· < ·))
    (hv : ∀ member ∈ members, member.2 ≠ .null) : (ofValues members).Tidy := by
  have hnodup : (names members).Nodup := h.imp fun hlt => ne_of_lt hlt
  rw [ofValues_eq hnodup hv]
  split_ifs with hsmall
  · exact ⟨h, (if_pos hsmall).symm⟩
  · rw [inKeyOrder_of_pairwise h]
    exact ⟨h, (if_neg hsmall).symm⟩

theorem names_insertSorted_of_mem (h : (names entries).Pairwise (· < ·))
    (hname : name ∈ names entries) : names (insertSorted name value entries) = names entries := by
  induction entries with
  | nil => cases hname
  | cons entry rest ih =>
    obtain ⟨hlt, hrest⟩ := List.pairwise_cons.mp h
    simp only [insertSorted]
    split_ifs with heq hbefore
    · rw [names_cons, names_cons, heq]
    · -- the name would stand before all others
      have hlater := hlt name ((List.mem_cons.mp hname).resolve_left heq)
      exact absurd hbefore (lt_asymm hlater)
    · rw [names_cons, names_cons, ih hrest ((List.mem_cons.mp hname).resolve_left heq)]

theorem Tidy.insert (h : d.Tidy) (hname : name ∈ names d.entries) : (d.insert name value).Tidy := by
  have hsame : names (d.insert name value).entries = names d.entries ∧
      (d.insert name value).storage = d.storage := by
    obtain ⟨storage, entries⟩ := d
    cases storage with
    | indexed => exact ⟨names_insertSorted_of_mem h.ordered hname, rfl⟩
    | flat =>
      simp only [Dict.insert, if_pos (contains_iff.mpr hname)]
      exact ⟨names_replace, trivial⟩
  have hsize : (d.insert name value).size = d.size := by
    have hlength := congrArg List.length hsame.1
    rwa [names, names, List.length_map, List.length_map] at hlength
  exact ⟨hsame.1 ▸ h.ordered, by rw [hsame.2, hsize, h.storage_eq]⟩

/-- **Tidy dictionaries are told apart by what they give.** -/
theorem Tidy.eq_of_get? (h : d.Tidy) (hother : other.Tidy)
    (hget : ∀ name, d.get? name = other.get? name) : d = other := by
  have hentries : d.entries = other.entries := eq_of_lookup h.ordered hother.ordered hget
  have hstorage : d.storage = other.storage := by
    rw [h.storage_eq, hother.storage_eq, size, size, hentries]
  obtain ⟨storage, entries⟩ := d
  obtain rfl := hentries
  obtain rfl := hstorage
  rfl

end Tidy

end Dict

end ResourceTree
