import Mathlib.Data.List.Nodup
import Mathlib.Data.String.Basic
import ResourceTree.Value.Basic

/-!
# Lookups in dictionaries

* `Dict.WellFormed`: no name occurs twice, and indexed entries are in key order;
* **`get?_insert`**, **`get?_erase`**, `get?_set_of_ne`: what a dictionary gives after a change;
* `wellFormed_insert`, `wellFormed_erase`, `wellFormed_set`: changes keep a dictionary well formed.
-/

namespace ResourceTree

namespace Dict

variable {α : Type*} {name other : String} {value : α} {entries : List (String × α)} {d : Dict α}

/-- The names of a run of entries. -/
def names (entries : List (String × α)) : List String := entries.map Prod.fst

@[simp] theorem names_nil : names ([] : List (String × α)) = [] := rfl

@[simp] theorem names_cons (entry : String × α) :
    names (entry :: entries) = entry.1 :: names entries := rfl

theorem lookup_cons_entry (entry : String × α) :
    (entry :: entries).lookup other =
      if other = entry.1 then some entry.2 else entries.lookup other := by
  obtain ⟨key, v⟩ := entry
  by_cases h : other = key
  · simp [h]
  · simp [List.lookup_cons, h, beq_eq_false_iff_ne.mpr h]

theorem lookup_eq_none_iff_names : entries.lookup name = none ↔ name ∉ names entries := by
  induction entries with
  | nil => simp
  | cons entry rest ih =>
    rw [lookup_cons_entry, names_cons, List.mem_cons, not_or, ← ih]
    split_ifs with h <;> simp [h]

/-! ## Runs of entries -/

theorem lookup_insertSorted :
    (insertSorted name value entries).lookup other =
      if other = name then some value else entries.lookup other := by
  induction entries with
  | nil => simp only [insertSorted, lookup_cons_entry]
  | cons entry rest ih =>
    simp only [insertSorted]
    split_ifs <;> simp only [lookup_cons_entry, ih] <;> split_ifs <;> simp_all

theorem mem_names_insertSorted :
    other ∈ names (insertSorted name value entries) ↔ other = name ∨ other ∈ names entries := by
  rw [← not_iff_not, ← lookup_eq_none_iff_names, lookup_insertSorted]
  split_ifs with h
  · simp [h]
  · rw [lookup_eq_none_iff_names, not_or]
    exact (and_iff_right h).symm

/-- Entries in ascending order of names stay so when a name is set. -/
theorem pairwise_insertSorted (h : (names entries).Pairwise (· < ·)) :
    (names (insertSorted name value entries)).Pairwise (· < ·) := by
  induction entries with
  | nil => simp [insertSorted]
  | cons entry rest ih =>
    obtain ⟨hlt, hrest⟩ := List.pairwise_cons.mp h
    simp only [insertSorted]
    split_ifs with heq hle
    · exact List.pairwise_cons.mpr ⟨heq ▸ hlt, hrest⟩
    · refine List.pairwise_cons.mpr ⟨fun m hm => ?_, h⟩
      rcases List.mem_cons.mp hm with rfl | hm
      · exact hle
      · exact lt_trans hle (hlt m hm)
    · refine List.pairwise_cons.mpr ⟨fun m hm => ?_, ih hrest⟩
      rcases mem_names_insertSorted.mp hm with rfl | hm
      · exact lt_of_le_of_ne (not_lt.mp hle) (Ne.symm heq)
      · exact hlt m hm

theorem lookup_inKeyOrder : (inKeyOrder entries).lookup other = entries.lookup other := by
  induction entries with
  | nil => rfl
  | cons entry rest ih =>
    have h : inKeyOrder (entry :: rest) = insertSorted entry.1 entry.2 (inKeyOrder rest) := rfl
    rw [h, lookup_insertSorted, lookup_cons_entry, ih]

theorem pairwise_inKeyOrder : (names (inKeyOrder entries)).Pairwise (· < ·) := by
  induction entries with
  | nil => simp [inKeyOrder]
  | cons entry rest ih => exact pairwise_insertSorted ih

theorem lookup_replace :
    (replace name value entries).lookup other =
      if other = name ∧ name ∈ names entries then some value else entries.lookup other := by
  induction entries with
  | nil => simp [replace]
  | cons entry rest ih =>
    simp only [replace]
    split_ifs <;> simp only [lookup_cons_entry, ih] <;> split_ifs <;> simp_all

theorem names_replace : names (replace name value entries) = names entries := by
  induction entries with
  | nil => rfl
  | cons entry rest ih =>
    simp only [replace]
    split_ifs <;> simp [ih]

/-- The entries that are left are all but one with the name. -/
theorem perm_eraseFlat (h : name ∈ names entries) :
    ∃ v, ((name, v) :: eraseFlat name entries).Perm entries := by
  induction entries with
  | nil => simp at h
  | cons entry rest ih =>
    obtain ⟨key, v⟩ := entry
    simp only [eraseFlat]
    split_ifs with heq
    · refine ⟨v, heq ▸ List.Perm.cons _ ?_⟩
      cases hl : rest.getLast? with
      | none => rw [List.getLast?_eq_none_iff.mp hl]
      | some last =>
        have hne : rest ≠ [] := fun he => by simp [he] at hl
        rw [List.getLast?_eq_some_getLast hne, Option.some.injEq] at hl
        conv_rhs => rw [← List.dropLast_concat_getLast hne, hl]
        exact (List.perm_append_singleton _ _).symm
    · obtain ⟨w, hw⟩ := ih ((List.mem_cons.mp h).resolve_left heq)
      exact ⟨w, (List.Perm.swap _ _ _).trans (hw.cons _)⟩

theorem eraseFlat_of_notMem (h : name ∉ names entries) : eraseFlat name entries = entries := by
  induction entries with
  | nil => rfl
  | cons entry rest ih =>
    rw [names_cons, List.mem_cons, not_or] at h
    rw [eraseFlat, if_neg h.1, ih h.2]

theorem lookup_eq_some_iff_mem (h : (names entries).Nodup) :
    entries.lookup name = some value ↔ (name, value) ∈ entries := by
  induction entries with
  | nil => simp
  | cons entry rest ih =>
    obtain ⟨hne, hrest⟩ := List.nodup_cons.mp h
    rw [lookup_cons_entry, List.mem_cons]
    split_ifs with heq
    · refine ⟨fun he => .inl (by rw [heq, ← Option.some.inj he]), ?_⟩
      rintro (he | hm)
      · rw [← he]
      · exact absurd (List.mem_map_of_mem (f := Prod.fst) hm) (heq ▸ hne)
    · rw [ih hrest]
      refine ⟨.inr, fun hm => hm.resolve_left fun he => heq ?_⟩
      rw [← he]

/-- Where no name occurs twice, the order of entries does not matter. -/
theorem lookup_perm {entries' : List (String × α)} (h : (names entries).Nodup)
    (hp : entries.Perm entries') : entries.lookup name = entries'.lookup name := by
  have h' : (names entries').Nodup := (hp.map Prod.fst).nodup_iff.mp h
  refine Option.ext fun v => ?_
  rw [lookup_eq_some_iff_mem h, lookup_eq_some_iff_mem h', hp.mem_iff]

theorem lookup_eraseFlat (h : (names entries).Nodup) :
    (eraseFlat name entries).lookup other =
      if other = name then none else entries.lookup other := by
  by_cases hm : name ∈ names entries
  · obtain ⟨v, hp⟩ := perm_eraseFlat hm
    have hn : (names ((name, v) :: eraseFlat name entries)).Nodup :=
      (hp.map Prod.fst).nodup_iff.mpr h
    rw [← lookup_perm hn hp, lookup_cons_entry]
    split_ifs with heq
    · exact lookup_eq_none_iff_names.mpr (heq ▸ (List.nodup_cons.mp hn).1)
    · rfl
  · rw [eraseFlat_of_notMem hm]
    split_ifs with heq
    · exact lookup_eq_none_iff_names.mpr (heq ▸ hm)
    · rfl

theorem lookup_eraseSorted :
    (eraseSorted name entries).lookup other =
      if other = name then none else entries.lookup other := by
  induction entries with
  | nil => simp [eraseSorted]
  | cons entry rest ih =>
    have h : eraseSorted name (entry :: rest) =
        if entry.1 = name then eraseSorted name rest else entry :: eraseSorted name rest := by
      simp only [eraseSorted, List.filter_cons, decide_not, Bool.not_eq_eq_eq_not, Bool.not_true,
        decide_eq_false_iff_not, ite_not]
    rw [h]
    split_ifs <;> simp only [lookup_cons_entry, ih] <;> split_ifs <;> simp_all

/-! ## Dictionaries -/

/-- No name occurs twice, and the entries of an indexed dictionary are in key order. -/
structure WellFormed (d : Dict α) : Prop where
  nodup : (names d.entries).Nodup
  ordered : d.storage = .indexed → (names d.entries).Pairwise (· < ·)

theorem wellFormed_empty : (∅ : Dict α).WellFormed := ⟨List.nodup_nil, fun _ => List.Pairwise.nil⟩

/-- An indexed dictionary in key order. -/
theorem wellFormed_of_pairwise (h : (names entries).Pairwise (· < ·)) :
    WellFormed (⟨.indexed, entries⟩ : Dict α) :=
  ⟨h.imp fun hlt => ne_of_lt hlt, fun _ => h⟩

@[simp] theorem get?_empty : (∅ : Dict α).get? name = none := rfl

theorem get?_eq_some_iff (h : d.WellFormed) : d.get? name = some value ↔ (name, value) ∈ d.entries :=
  lookup_eq_some_iff_mem h.nodup

theorem contains_iff : d.contains name = true ↔ name ∈ names d.entries := by
  rw [contains, get?, Option.isSome_iff_ne_none, ne_eq, lookup_eq_none_iff_names, not_not]

/-- **What a dictionary gives after a name was set.** -/
theorem get?_insert : (d.insert name value).get? other =
    if other = name then some value else d.get? other := by
  obtain ⟨storage, entries⟩ := d
  cases storage with
  | indexed => exact lookup_insertSorted
  | flat =>
    by_cases hm : name ∈ names entries
    · simp only [insert, contains_iff, hm, if_true, get?, lookup_replace, and_true]
    · have happ : (entries ++ [(name, value)]).lookup other =
          if other = name then some value else entries.lookup other := by
        rw [List.lookup_append, lookup_cons_entry, List.lookup_nil]
        split_ifs with h
        · rw [h, lookup_eq_none_iff_names.mpr hm, Option.none_or]
        · rw [Option.or_none]
      simp only [insert, contains_iff, if_neg hm]
      by_cases hl : (entries ++ [(name, value)]).length < flatLimit
      · rw [if_pos hl]
        exact happ
      · rw [if_neg hl]
        exact lookup_inKeyOrder.trans happ

@[simp] theorem get?_insert_self : (d.insert name value).get? name = some value := by
  rw [get?_insert, if_pos rfl]

/-- **What a dictionary gives after a name was removed.** -/
theorem get?_erase (h : d.WellFormed) :
    (d.erase name).get? other = if other = name then none else d.get? other := by
  obtain ⟨storage, entries⟩ := d
  cases storage with
  | indexed => exact lookup_eraseSorted
  | flat => exact lookup_eraseFlat h.nodup

theorem wellFormed_insert (h : d.WellFormed) : (d.insert name value).WellFormed := by
  obtain ⟨storage, entries⟩ := d
  cases storage with
  | indexed => exact wellFormed_of_pairwise (pairwise_insertSorted (h.ordered rfl))
  | flat =>
    simp only [insert, contains_iff]
    split_ifs with hn hl
    · exact ⟨by simpa [names_replace] using h.nodup, fun hs => by cases hs⟩
    · refine ⟨?_, fun hs => by cases hs⟩
      have happ : names (entries ++ [(name, value)]) = names entries ++ [name] := by simp [names]
      rw [happ]
      exact List.Nodup.append h.nodup (List.nodup_singleton _) (by simpa using hn)
    · exact wellFormed_of_pairwise pairwise_inKeyOrder

theorem wellFormed_erase (h : d.WellFormed) : (d.erase name).WellFormed := by
  obtain ⟨storage, entries⟩ := d
  cases storage with
  | indexed =>
    refine wellFormed_of_pairwise ((h.ordered rfl).sublist ?_)
    exact (List.filter_sublist).map Prod.fst
  | flat =>
    refine ⟨?_, fun hs => by cases hs⟩
    by_cases hm : name ∈ names entries
    · obtain ⟨v, hp⟩ := perm_eraseFlat hm
      have hn := (hp.map Prod.fst).nodup_iff.mpr h.nodup
      exact (List.nodup_cons.mp hn).2
    · simpa only [erase, eraseFlat_of_notMem hm] using h.nodup

theorem get?_set_of_ne {d : Dict Value} {v : Value} (h : d.WellFormed) (hne : other ≠ name) :
    (d.set name v).get? other = d.get? other := by
  unfold set
  split
  · rw [get?_erase h, if_neg hne]
  · rw [get?_insert, if_neg hne]

theorem wellFormed_set {d : Dict Value} {v : Value} (h : d.WellFormed) :
    (d.set name v).WellFormed := by
  unfold set
  split
  · exact wellFormed_erase h
  · exact wellFormed_insert h

end Dict

end ResourceTree
