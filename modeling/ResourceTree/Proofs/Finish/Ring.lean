import Mathlib.Data.List.Chain
import Mathlib.Data.List.Nodup
import Mathlib.Data.List.Perm.Subperm
import Mathlib.Logic.Relation
import Mathlib.Tactic.SplitIfs
import ResourceTree.Compile.FinishTable

/-!
# Rings of waiting workers

* `FinishTable.WaitsFor`: one worker waits for an object that another one is finishing;
* `FinishTable.Acyclic`: no worker waits for itself, through any number of others;
* **`closesRing_iff`**: without a ring, the bounded walk of `closesRing` finds whoever there is to
  find, however long the chain;
* `Starts`: what asking for an object does, case by case;
* **`acyclic_wait`**, `acyclic_begin`, `acyclic_finish`, `acyclic_stopWaiting`: no step closes a
  ring.
-/

namespace ResourceTree

namespace FinishTable

variable {t t' : FinishTable} {object worker owner a b k : Nat} {entries : List (Nat × Nat)}

/-! ## Lookups after a change -/

theorem lookup_cons_eq (entry : Nat × Nat) :
    (entry :: entries).lookup a = if a = entry.1 then some entry.2 else entries.lookup a := by
  obtain ⟨key, value⟩ := entry
  by_cases h : a = key
  · simp [h]
  · simp [List.lookup_cons, h, beq_eq_false_iff_ne.mpr h]

theorem lookup_filter_ne :
    (entries.filter fun entry => entry.1 ≠ k).lookup a =
      if a = k then none else entries.lookup a := by
  induction entries with
  | nil => simp
  | cons entry rest ih =>
    by_cases hk : entry.1 = k
    · simp only [hk, List.filter_cons, ne_eq, not_true_eq_false, decide_false, Bool.false_eq_true,
        if_false, lookup_cons_eq]
      simp only [ne_eq] at ih
      rw [ih]
      split_ifs <;> rfl
    · simp only [List.filter_cons, ne_eq, hk, not_false_eq_true, decide_true, if_true,
        lookup_cons_eq]
      simp only [ne_eq] at ih
      rw [ih]
      by_cases ha : a = entry.1
      · rw [if_pos ha, if_neg fun h => hk (ha.symm.trans h), if_pos ha]
      · rw [if_neg ha, if_neg ha]

theorem lookup_finish (t : FinishTable) (object a : Nat) :
    (t.finish object).inProgress.lookup a =
      if a = object then none else t.inProgress.lookup a := lookup_filter_ne

theorem lookup_stopWaiting (t : FinishTable) (worker a : Nat) :
    (t.stopWaiting worker).waiting.lookup a =
      if a = worker then none else t.waiting.lookup a := lookup_filter_ne

/-! ## Chains of waiting workers -/

/-- A worker waits for an object that another worker is finishing. -/
def WaitsFor (t : FinishTable) (a b : Nat) : Prop := t.awaited? a = some b

/-- No worker waits for itself. -/
def Acyclic (t : FinishTable) : Prop := ∀ a, ¬ Relation.TransGen t.WaitsFor a a

theorem waitsFor_iff : t.WaitsFor a b ↔
    ∃ o, t.waiting.lookup a = some o ∧ t.inProgress.lookup o = some b :=
  Option.bind_eq_some_iff

theorem reflTransGen_of_leadsTo {steps : Nat} (h : t.leadsTo worker steps a = true) :
    Relation.ReflTransGen t.WaitsFor a worker := by
  induction steps generalizing a with
  | zero => simp [leadsTo] at h
  | succ steps ih =>
    rw [leadsTo, Bool.or_eq_true, beq_iff_eq] at h
    rcases h with rfl | h
    · exact .refl
    · cases hnext : t.awaited? a with
      | none => simp [hnext] at h
      | some next =>
        rw [hnext] at h
        exact .head hnext (ih h)

theorem exists_waitsFor_of_mem_dropLast {l : List Nat} (hl : l.IsChain t.WaitsFor) :
    ∀ x ∈ l.dropLast, ∃ y, t.WaitsFor x y := by
  induction l with
  | nil => simp
  | cons x rest ih =>
    cases rest with
    | nil => simp
    | cons y rest =>
      rw [List.isChain_cons_cons] at hl
      rw [List.dropLast_cons_cons]
      rintro z hz
      rcases List.mem_cons.mp hz with rfl | hz
      · exact ⟨y, hl.1⟩
      · exact ih hl.2 z hz

theorem Acyclic.nodup (ht : t.Acyclic) {l : List Nat} (hl : l.IsChain t.WaitsFor) : l.Nodup := by
  have hpairwise : l.Pairwise (Relation.TransGen t.WaitsFor) :=
    (hl.imp fun _ _ h => Relation.TransGen.single h).pairwise
  refine hpairwise.imp fun {x y} hxy he => ?_
  subst he
  exact ht x hxy

/-- **A chain is no longer than there are waiting workers.** -/
theorem Acyclic.length_le (ht : t.Acyclic) {l : List Nat} (hl : l.IsChain t.WaitsFor) :
    l.length ≤ t.waiting.length + 1 := by
  have hsub : l.dropLast ⊆ t.waiting.map Prod.fst := by
    intro x hx
    obtain ⟨y, hy⟩ := exists_waitsFor_of_mem_dropLast hl x hx
    obtain ⟨o, ho, -⟩ := waitsFor_iff.mp hy
    obtain ⟨l₁, l₂, heq, -⟩ := List.lookup_eq_some_iff.mp ho
    rw [heq]
    simp
  have hnodup : l.dropLast.Nodup := (ht.nodup hl).sublist (List.dropLast_sublist l)
  have hlength := (List.Nodup.subperm hnodup hsub).length_le
  rw [List.length_dropLast, List.length_map] at hlength
  omega

theorem leadsTo_of_isChain {l : List Nat} (hl : (a :: l).IsChain t.WaitsFor)
    (hlast : (a :: l).getLast (List.cons_ne_nil a l) = worker) {steps : Nat}
    (hsteps : l.length < steps) : t.leadsTo worker steps a = true := by
  induction l generalizing a steps with
  | nil =>
    obtain ⟨steps, rfl⟩ := Nat.exists_eq_add_of_lt hsteps
    simp only [List.getLast_singleton] at hlast
    simp [leadsTo, hlast]
  | cons b l ih =>
    obtain ⟨steps, rfl⟩ : ∃ m, steps = m + 1 := ⟨steps - 1, by omega⟩
    rw [List.isChain_cons_cons] at hl
    have hnext : t.awaited? a = some b := hl.1
    rw [List.getLast_cons_cons] at hlast
    simp only [leadsTo, hnext, ih hl.2 hlast (by simpa using hsteps), Bool.or_true]

/-- **The walk finds a chain of any length**, as long as there is no ring. -/
theorem Acyclic.closesRing_iff (ht : t.Acyclic) :
    t.closesRing worker owner = true ↔ Relation.ReflTransGen t.WaitsFor owner worker := by
  refine ⟨reflTransGen_of_leadsTo, fun h => ?_⟩
  obtain ⟨l, hl, hlast⟩ := List.exists_isChain_cons_of_relationReflTransGen h
  have hlength := ht.length_le hl
  rw [List.length_cons] at hlength
  exact leadsTo_of_isChain hl hlast hlength

/-! ## What asking for an object does -/

/-- What a worker is told that asks for an object, and the table from then on. -/
inductive Starts (t : FinishTable) (object worker : Nat) : Verdict → FinishTable → Prop where
  | finished (hfinished : object ∈ t.finished) : Starts t object worker .finished t
  | cycle (owner : Nat) (hopen : object ∉ t.finished)
      (howner : t.inProgress.lookup object = some owner)
      (hring : t.closesRing worker owner = true) : Starts t object worker .cycle t
  | wait (owner : Nat) (hopen : object ∉ t.finished)
      (howner : t.inProgress.lookup object = some owner)
      (hring : t.closesRing worker owner = false) :
      Starts t object worker .wait { t with waiting := (worker, object) :: t.waiting }
  | begun (hopen : object ∉ t.finished) (hfree : t.inProgress.lookup object = none) :
      Starts t object worker .begun { t with inProgress := (object, worker) :: t.inProgress }

theorem starts (t : FinishTable) (object worker : Nat) :
    Starts t object worker (t.start object worker).1 (t.start object worker).2 := by
  unfold start
  by_cases hfinished : object ∈ t.finished
  · rw [if_pos (List.contains_iff_mem.mpr hfinished)]
    exact .finished hfinished
  · rw [if_neg fun h => hfinished (List.contains_iff_mem.mp h)]
    cases howner : t.inProgress.lookup object with
    | none => exact .begun hfinished howner
    | some owner =>
      cases hring : t.closesRing worker owner with
      | true => simpa only [hring, if_true] using .cycle owner hfinished howner hring
      | false =>
        simpa only [hring, Bool.false_eq_true, if_false] using .wait owner hfinished howner hring

theorem starts_of_eq {verdict : Verdict} (h : t.start object worker = (verdict, t')) :
    Starts t object worker verdict t' := by
  have hstarts := t.starts object worker
  rw [h] at hstarts
  exact hstarts

/-! ## Rings stay open -/

theorem acyclic_of_imp (ht : t.Acyclic) (h : ∀ a b, t'.WaitsFor a b → t.WaitsFor a b) :
    t'.Acyclic := fun a ha => ht a (Relation.TransGen.mono h a a ha)

/-- One more edge closes no ring, where its end does not lead to its beginning. -/
theorem acyclic_of_edge (ht : t.Acyclic) (hno : ¬ Relation.ReflTransGen t.WaitsFor owner worker)
    (h : ∀ a b, t'.WaitsFor a b → t.WaitsFor a b ∨ a = worker ∧ b = owner) : t'.Acyclic := by
  -- A chain avoids the new edge, or comes to its beginning and goes on from its end.
  have hpath : ∀ a b, Relation.TransGen t'.WaitsFor a b → Relation.TransGen t.WaitsFor a b ∨
      Relation.ReflTransGen t.WaitsFor a worker ∧ Relation.ReflTransGen t.WaitsFor owner b := by
    intro a b hab
    induction hab with
    | single hstep =>
      rcases h _ _ hstep with hstep | ⟨rfl, rfl⟩
      · exact .inl (.single hstep)
      · exact .inr ⟨.refl, .refl⟩
    | tail _ hstep ih =>
      rcases h _ _ hstep with hstep | ⟨rfl, rfl⟩
      · exact ih.imp (·.tail hstep) fun hboth => ⟨hboth.1, hboth.2.tail hstep⟩
      · rcases ih with hpath | ⟨-, hpath⟩
        · exact .inr ⟨hpath.to_reflTransGen, .refl⟩
        · exact absurd hpath hno
  intro a ha
  rcases hpath a a ha with hring | ⟨haw, hoa⟩
  · exact ht a hring
  · exact hno (hoa.trans haw)

/-- **A wait closes no ring**, where the walk finds none. -/
theorem acyclic_wait (ht : t.Acyclic) (howner : t.inProgress.lookup object = some owner)
    (hring : t.closesRing worker owner = false) :
    Acyclic { t with waiting := (worker, object) :: t.waiting } := by
  have hno : ¬ Relation.ReflTransGen t.WaitsFor owner worker := fun h => by
    rw [ht.closesRing_iff.mpr h] at hring
    cases hring
  refine acyclic_of_edge ht hno fun a b hab => ?_
  obtain ⟨o, ho, hb⟩ := waitsFor_iff.mp hab
  rw [lookup_cons_eq] at ho
  split_ifs at ho with ha
  · obtain rfl := Option.some.inj ho
    rw [howner, Option.some.injEq] at hb
    exact .inr ⟨ha, hb.symm⟩
  · exact .inl (waitsFor_iff.mpr ⟨o, ho, hb⟩)

theorem acyclic_begin (ht : t.Acyclic) (hnobody : ∀ a, t.waiting.lookup a ≠ some object) :
    Acyclic { t with inProgress := (object, worker) :: t.inProgress } := by
  refine acyclic_of_imp ht fun a b hab => ?_
  obtain ⟨o, ho, hb⟩ := waitsFor_iff.mp hab
  have hne : o ≠ object := fun h => hnobody a (by rw [← h]; exact ho)
  rw [lookup_cons_eq, if_neg hne] at hb
  exact waitsFor_iff.mpr ⟨o, ho, hb⟩

theorem acyclic_finish (ht : t.Acyclic) (object : Nat) : (t.finish object).Acyclic := by
  refine acyclic_of_imp ht fun a b hab => ?_
  obtain ⟨o, ho, hb⟩ := waitsFor_iff.mp hab
  rw [lookup_finish] at hb
  split_ifs at hb
  exact waitsFor_iff.mpr ⟨o, ho, hb⟩

theorem acyclic_stopWaiting (ht : t.Acyclic) (worker : Nat) : (t.stopWaiting worker).Acyclic := by
  refine acyclic_of_imp ht fun a b hab => ?_
  obtain ⟨o, ho, hb⟩ := waitsFor_iff.mp hab
  rw [lookup_stopWaiting] at ho
  split_ifs at ho
  exact waitsFor_iff.mpr ⟨o, ho, hb⟩

end FinishTable

end ResourceTree
