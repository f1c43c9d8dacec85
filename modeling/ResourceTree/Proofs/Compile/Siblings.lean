import Mathlib.Data.List.Induction
import ResourceTree.Compile.Sibling
import ResourceTree.Example.Item
import ResourceTree.Files.Memory
import ResourceTree.Proofs.Compile.Publishing
import ResourceTree.Proofs.Compile.Run
import ResourceTree.Proofs.Compile.Tame
import ResourceTree.Proofs.Dict.Entries
import ResourceTree.Proofs.Walk.Notes

/-!
# Siblings — entries that root objects offer

Root objects are asked in key order, each for entries in key order. The entries that are taken
stand in the way of those that come later, so of all offers of a free name the first one is taken,
and every other offer is refused and told of. What the root held stays, and what is taken is also
what the handle of its name shows.

* `Offer`, `joined`, `run_extended`: an extension as offers that are joined in turn;
* `first?`, `isTaken`, **`Joins`**, `joins_foldl`: what has become of the offers so far;
* `Offers`, `OffersFirst`, `mem_offersOf`, `ordered_offersOf`;
* `lasting_referring`, `referring_finished`: a tree that a compile extends;
* **`extended_joins`**.
-/

namespace ResourceTree

namespace Compile

open ResourceTree.Action

/-! ## Offers in turn -/

/-- An entry that the object under a root entry offers. -/
structure Offer where
  owner : String
  name : String
  value : Value

variable {σ : Type} {setting : Setting σ} {s : Store σ} {p : Progress σ} {root out : Dict Value}
  {state : Dict Value × Progress σ} {l : List Offer} {o : Offer} {name : String}

/-- What is told of an offer that is refused. -/
def refusal (owner name : String) : Diagnostic :=
  ⟨.resolution, "/" ++ name, s!"sibling resource of '{owner}' collides with an existing entry"⟩

/-- A root and a progress after one more offer. -/
def joined (state : Dict Value × Progress σ) (o : Offer) : Dict Value × Progress σ :=
  if state.1.contains o.name then (state.1, state.2.note (.diagnostic (refusal o.owner o.name)))
  else (state.1.set o.name o.value, state.2.published o.name o.value)

theorem objects_foldl_joined :
    (l.foldl joined state).2.store.objects = state.2.store.objects := by
  induction l generalizing state with
  | nil => rfl
  | cons o rest ih =>
    refine ih.trans ?_
    unfold joined
    split_ifs
    · rfl
    · exact Progress.objects_published

theorem run_foldlM_of_steps {α β : Type} {f : β → α → Action σ β}
    {g : β × Progress σ → α → β × Progress σ} {P : Progress σ → Prop} {xs : List α}
    (hf : ∀ a ∈ xs, ∀ b p, P p →
      (f b a).run setting p = (.ok (g (b, p) a).1, (g (b, p) a).2) ∧ P (g (b, p) a).2)
    (b : β) (hp : P p) : (xs.foldlM f b).run setting p =
      (.ok (xs.foldl g (b, p)).1, (xs.foldl g (b, p)).2) := by
  induction xs generalizing b p with
  | nil => rfl
  | cons a rest ih =>
    obtain ⟨hrun, hnext⟩ := hf a List.mem_cons_self b p hp
    rw [List.foldlM_cons, run_bind_of_ok hrun]
    exact ih (fun a ha => hf a (List.mem_cons_of_mem _ ha)) _ hnext

theorem run_addSibling (owner : String) (entry : String × Value) :
    (addSibling owner out entry).run setting p =
      (.ok (joined (out, p) ⟨owner, entry.1, entry.2⟩).1,
        (joined (out, p) ⟨owner, entry.1, entry.2⟩).2) := by
  unfold addSibling joined
  dsimp only
  split_ifs <;> rfl

/-! ## Which offers are taken -/

/-- The first offer of a name. -/
def first? (l : List Offer) (name : String) : Option Offer := l.find? fun o => o.name = name

/-- Whether an offer is the first of its name, and the root does not hold the name. -/
def isTaken (root : Dict Value) (l : List Offer) (o : Offer) : Bool :=
  !root.contains o.name && (first? l o.name).map Offer.owner = some o.owner

/-- The offers that are not taken. -/
def refused (root : Dict Value) (l : List Offer) : List Offer := l.filter fun o => !isTaken root l o

/-- Offers of one name come in the key order of their owners. -/
def Ordered (l : List Offer) : Prop := l.Pairwise fun a b => a.name = b.name → a.owner < b.owner

theorem first?_concat : first? (l ++ [o]) name =
    (first? l name).or (if o.name = name then some o else none) := by
  rw [first?, List.find?_append, List.find?_singleton]
  simp only [decide_eq_true_eq]
  rfl

theorem name_of_first? (h : first? l name = some o) : o.name = name :=
  of_decide_eq_true (List.find?_some (p := fun o : Offer => decide (o.name = name)) h)

theorem first?_isSome (h : o ∈ l) : (first? l o.name).isSome = true :=
  List.find?_isSome.mpr ⟨o, h, decide_eq_true rfl⟩

/-- **The first offer of a name is the one of the least owner.** -/
theorem first?_eq_some_iff (h : Ordered l) : first? l name = some o ↔
    o ∈ l ∧ o.name = name ∧ ∀ other ∈ l, other.name = name → ¬ other.owner < o.owner := by
  have hleast : ∀ {o'}, first? l name = some o' →
      ∀ other ∈ l, other.name = name → other = o' ∨ o'.owner < other.owner := by
    intro o' hfirst other hother hname
    obtain ⟨-, before, after, rfl, hbefore⟩ := List.find?_eq_some_iff_append.mp hfirst
    rcases List.mem_append.mp hother with hother | hother
    · exact absurd hname (by simpa using hbefore other hother)
    · rcases List.mem_cons.mp hother with rfl | hother
      · exact .inl rfl
      · have hpair := (List.pairwise_cons.mp (List.pairwise_append.mp h).2.1).1 other hother
        exact .inr (hpair ((name_of_first? hfirst).trans hname.symm))
  constructor
  · intro hfirst
    refine ⟨List.mem_of_find?_eq_some hfirst, name_of_first? hfirst, fun other hother hname => ?_⟩
    rcases hleast hfirst other hother hname with rfl | hlt
    · exact lt_irrefl _
    · exact lt_asymm hlt
  · rintro ⟨ho, rfl, hno⟩
    obtain ⟨o', hfirst⟩ := Option.isSome_iff_exists.mp (first?_isSome ho)
    rcases hleast hfirst o ho rfl with rfl | hlt
    · exact hfirst
    · exact absurd hlt (hno o' (List.mem_of_find?_eq_some hfirst) (name_of_first? hfirst))

/-- One more offer changes nothing about those before it. -/
theorem refused_concat : refused root (l ++ [o]) =
    refused root l ++ if isTaken root (l ++ [o]) o = true then [] else [o] := by
  have hbefore : ∀ other ∈ l, (!isTaken root (l ++ [o]) other) = !isTaken root l other := by
    intro other hother
    obtain ⟨found, hfound⟩ := Option.isSome_iff_exists.mp (first?_isSome hother)
    rw [isTaken, isTaken, first?_concat, hfound, Option.some_or]
  rw [refused, List.filter_append, List.filter_congr hbefore, List.filter_singleton]
  cases isTaken root (l ++ [o]) o <;> rfl

theorem isTaken_iff (h : Ordered l) (ho : o ∈ l) :
    isTaken root l o = true ↔ root.get? o.name = none ∧ first? l o.name = some o := by
  rw [isTaken, Bool.and_eq_true, decide_eq_true_eq, Bool.not_eq_true', Dict.contains,
    Option.isSome_eq_false_iff, Option.isNone_iff_eq_none]
  refine and_congr_right fun _ => ⟨fun howner => ?_, fun hfirst => by rw [hfirst]; rfl⟩
  obtain ⟨o', hfirst, howner⟩ := Option.map_eq_some_iff.mp howner
  obtain ⟨-, -, hleast⟩ := (first?_eq_some_iff h).mp hfirst
  exact (first?_eq_some_iff h).mpr ⟨ho, rfl, howner ▸ hleast⟩

theorem isTaken_concat (h : Ordered (l ++ [o])) : isTaken root (l ++ [o]) o = true ↔
    root.get? o.name = none ∧ first? l o.name = none := by
  have hafter : ∀ other ∈ l, other.name = o.name → other.owner < o.owner := fun other hother =>
    (List.pairwise_append.mp h).2.2 other hother o List.mem_cons_self
  rw [isTaken, Bool.and_eq_true, decide_eq_true_eq, first?_concat, if_pos rfl, Bool.not_eq_true',
    Dict.contains, Option.isSome_eq_false_iff, Option.isNone_iff_eq_none]
  refine and_congr_right fun _ => ?_
  cases hfirst : first? l o.name with
  | none => simp
  | some other =>
    have hlt := hafter other (List.mem_of_find?_eq_some hfirst) (name_of_first? hfirst)
    simpa using ne_of_lt hlt

/-- **What has become of some offers.** Names of the root and names that were offered are there,
with the value of the root or of the first offer; a value that was taken is what the handle of its
name shows, and other handles show what they did; all offers that were not taken are told of. -/
structure Joins (root : Dict Value) (p : Progress σ) (l : List Offer)
    (state : Dict Value × Progress σ) : Prop where
  get? : ∀ name, state.1.get? name = (root.get? name).or ((first? l name).map Offer.value)
  referring : state.2.Referring
  shown? : ∀ name, state.2.shown? name = if root.contains name = true then p.shown? name
    else ((first? l name).map Offer.value).or (p.shown? name)
  handles : ∀ name h, p.references.get? name = some h → state.2.references.get? name = some h
  errors : state.2.errors.toList =
    p.errors.toList ++ (refused root l).map fun o => refusal o.owner o.name

theorem joins_nil (hp : p.Referring) : Joins root p [] (root, p) where
  get? name := (Option.or_none ..).symm
  referring := hp
  shown? name := by split_ifs <;> rfl
  handles _ _ h := h
  errors := (List.append_nil _).symm

/-- **One more offer is joined.** -/
theorem Joins.concat (h : Joins root p l state) (hordered : Ordered (l ++ [o]))
    (hv : o.value ≠ .null) : Joins root p (l ++ [o]) (joined state o) := by
  have hthere : state.1.contains o.name = true ↔
      ¬ (root.get? o.name = none ∧ first? l o.name = none) := by
    rw [Dict.contains, h.get?, Option.isSome_iff_ne_none, ne_eq, Option.or_eq_none_iff,
      Option.map_eq_none_iff]
  unfold joined
  split_ifs with hname
  · have hsame : ∀ name, root.get? name = none → first? (l ++ [o]) name = first? l name := by
      intro name hroot
      rw [first?_concat]
      split_ifs with heq
      · subst heq
        obtain ⟨first, hfirst⟩ :=
          Option.ne_none_iff_exists'.mp fun hnone => hthere.mp hname ⟨hroot, hnone⟩
        rw [hfirst, Option.some_or]
      · exact Option.or_none ..
    have hrefused := mt (isTaken_concat hordered).mp (hthere.mp hname)
    refine ⟨fun name => (h.get? name).trans ?_, ⟨h.referring.inUse, h.referring.apart⟩,
      fun name => (h.shown? name).trans ?_, h.handles, ?_⟩
    · cases hroot : root.get? name with
      | some v => rfl
      | none => rw [hsame name hroot]
    · split_ifs with hroot
      · rfl
      · rw [hsame name (Option.not_isSome_iff_eq_none.mp hroot)]
    · rw [refused_concat, if_neg hrefused, List.map_append, ← List.append_assoc, ← h.errors]
      exact Array.toList_push
  · obtain ⟨hroot, hfirst⟩ := not_not.mp (mt hthere.mpr hname)
    refine ⟨fun name => ?_, Progress.referring_published h.referring, fun name => ?_,
      fun name g hg => Progress.references_published (h.handles name g hg), ?_⟩
    · rw [Dict.set_of_ne_null hv, Dict.get?_insert, h.get?, first?_concat]
      by_cases heq : o.name = name
      · subst heq
        rw [if_pos rfl, if_pos rfl, hroot, hfirst]
        rfl
      · rw [if_neg (Ne.symm heq), if_neg heq, Option.or_none]
    · rw [Progress.shown?_published h.referring, h.shown?, first?_concat]
      by_cases heq : o.name = name
      · subst heq
        rw [if_pos rfl, if_pos rfl, hfirst, if_neg (by simp [Dict.contains, hroot])]
        rfl
      · rw [if_neg (Ne.symm heq), if_neg heq, Option.or_none]
    · rw [Progress.errors_published, h.errors, refused_concat,
        if_pos ((isTaken_concat hordered).mpr ⟨hroot, hfirst⟩), List.append_nil]

/-- **All offers are joined.** -/
theorem joins_foldl (hp : p.Referring) (hordered : Ordered l) (hv : ∀ o ∈ l, o.value ≠ .null) :
    Joins root p l (l.foldl joined (root, p)) := by
  induction l using List.reverseRecOn with
  | nil => exact joins_nil hp
  | append_singleton l o ih =>
    rw [List.forall_mem_append, List.forall_mem_singleton] at hv
    rw [List.foldl_append]
    exact (ih (List.pairwise_append.mp hordered).1 hv.1).concat hordered hv.2

variable [ObjectClass σ]

/-- The entries that a root entry offers. -/
def offerAt? (s : Store σ) : Value → Option (Dict Value)
  | .object ref =>
    (s.object? ref).bind fun object => ((ObjectClass.siblings object ref).toOption).join
  | _ => none

/-- The offers of one root entry, in key order. -/
def offersAt (s : Store σ) (entry : String × Value) : List Offer :=
  match offerAt? s entry.2 with
  | some d => d.sorted.map fun member => ⟨entry.1, member.1, member.2⟩
  | none => []

/-- All offers, in key order. -/
def offersOf (s : Store σ) (root : Dict Value) : List Offer := root.sorted.flatMap (offersAt s)

/-- Objects of a root answer when they are asked for entries, with dictionaries in which no name
occurs twice and nothing is null. -/
structure Answering (s : Store σ) (root : Dict Value) : Prop where
  quiet : ∀ owner ref object panic, root.get? owner = some (.object ref) →
    s.object? ref = some object → ObjectClass.siblings object ref ≠ .error panic
  wellFormed : ∀ owner v d, root.get? owner = some v → offerAt? s v = some d →
    d.WellFormed ∧ d.NullFree

theorem run_addSiblings {entry : String × Value} (hobjects : p.store.objects = s.objects)
    (hquiet : ∀ ref object panic, entry.2 = .object ref → s.object? ref = some object →
      ObjectClass.siblings object ref ≠ .error panic) :
    (addSiblings out entry).run setting p =
      (.ok ((offersAt s entry).foldl joined (out, p)).1,
        ((offersAt s entry).foldl joined (out, p)).2) := by
  obtain ⟨owner, v⟩ := entry
  unfold addSiblings offersAt
  cases v with
  | object ref =>
    have hobject : p.store.object? ref = s.object? ref :=
      congrArg (fun objects : Array (Option σ) => (objects[ref.id]?).join) hobjects
    dsimp only [offerAt?]
    unfold offerOf
    rw [bind_assoc, run_bind, run_store]
    dsimp only
    rw [hobject]
    cases hfound : s.object? ref with
    | none => rfl
    | some object =>
      rw [Option.bind_some]
      dsimp only
      cases hoffer : ObjectClass.siblings object ref with
      | error panic => exact absurd hoffer (hquiet ref object panic rfl hfound)
      | ok offer =>
        cases offer with
        | none => rfl
        | some d =>
          show (d.sorted.foldlM (addSibling owner) out).run setting p = _
          rw [run_foldlM_of_steps (P := fun _ => True)
            (g := fun state member => joined state ⟨owner, member.1, member.2⟩)
            (fun member _ b q _ => ⟨run_addSibling owner member, trivial⟩) out trivial]
          dsimp only [Except.toOption, Option.join_some]
          rw [List.foldl_map]
  | _ => rfl

/-- **An extension joins all offers in turn.** -/
theorem run_extended (hroot : root.WellFormed) (h : Answering p.store root) :
    (extended root).run setting p =
      (.ok ((offersOf p.store root).foldl joined (root, p)).1,
        ((offersOf p.store root).foldl joined (root, p)).2) := by
  unfold extended offersOf
  rw [List.foldl_flatMap]
  refine run_foldlM_of_steps (P := fun q => q.store.objects = p.store.objects)
    (fun entry hentry out q hq => ⟨run_addSiblings hq fun ref object panic href hfound => ?_, ?_⟩)
    root rfl
  · have hget : root.get? entry.1 = some (.object ref) :=
      (Dict.get?_eq_some_iff hroot).mpr (href ▸ Dict.inKeyOrder_subset hentry)
    exact h.quiet entry.1 ref object panic hget hfound
  · exact objects_foldl_joined.trans hq

/-! ## Offers of root objects -/

/-- The object under a root entry offers an entry. -/
def Offers (s : Store σ) (root : Dict Value) (owner name : String) (v : Value) : Prop :=
  ∃ u d, root.get? owner = some u ∧ offerAt? s u = some d ∧ d.get? name = some v

/-- The object under a root entry offers an entry, and none before it in key order offers one of
this name. -/
def OffersFirst (s : Store σ) (root : Dict Value) (owner name : String) (v : Value) : Prop :=
  Offers s root owner name v ∧ ∀ earlier w, earlier < owner → ¬ Offers s root earlier name w

theorem mem_offersAt {entry : String × Value} : o ∈ offersAt s entry ↔
    o.owner = entry.1 ∧ ∃ d, offerAt? s entry.2 = some d ∧ (o.name, o.value) ∈ d.sorted := by
  unfold offersAt
  cases offerAt? s entry.2 with
  | none => simp
  | some d =>
    constructor
    · intro ho
      obtain ⟨member, hmember, rfl⟩ := List.mem_map.mp ho
      exact ⟨rfl, d, rfl, hmember⟩
    · rintro ⟨howner, d', hd', hmember⟩
      obtain rfl := Option.some.inj hd'
      exact List.mem_map.mpr ⟨(o.name, o.value), hmember, by rw [← howner]⟩

theorem mem_offersOf (hroot : root.WellFormed) (h : Answering s root) :
    o ∈ offersOf s root ↔ Offers s root o.owner o.name o.value := by
  rw [offersOf, List.mem_flatMap]
  constructor
  · rintro ⟨⟨owner, u⟩, hentry, ho⟩
    obtain ⟨rfl, d, hd, hmember⟩ := mem_offersAt.mp ho
    have hget := (Dict.mem_inKeyOrder_iff hroot).mp hentry
    exact ⟨u, d, hget, hd, (Dict.mem_inKeyOrder_iff (h.wellFormed _ u d hget hd).1).mp hmember⟩
  · rintro ⟨u, d, hget, hd, hmember⟩
    refine ⟨(o.owner, u), (Dict.mem_inKeyOrder_iff hroot).mpr hget,
      mem_offersAt.mpr ⟨rfl, d, hd, ?_⟩⟩
    exact (Dict.mem_inKeyOrder_iff (h.wellFormed _ u d hget hd).1).mpr hmember

/-- Offers of one name come in the key order of their owners. -/
theorem ordered_offersOf : Ordered (offersOf s root) := by
  refine List.pairwise_flatMap.mpr ⟨fun entry _ => ?_, ?_⟩
  · -- one object offers no name twice
    unfold offersAt
    cases offerAt? s entry.2 with
    | none => exact List.Pairwise.nil
    | some d =>
      refine List.pairwise_map.mpr ((List.pairwise_map.mp Dict.pairwise_inKeyOrder).imp ?_)
      exact fun hlt heq => absurd heq (ne_of_lt hlt)
  · refine (List.pairwise_map.mp Dict.pairwise_inKeyOrder).imp fun hlt a ha b hb _ => ?_
    rw [(mem_offersAt.mp ha).1, (mem_offersAt.mp hb).1]
    exact hlt

theorem first?_offersOf {owner : String} {v : Value} (hroot : root.WellFormed)
    (h : Answering s root) : first? (offersOf s root) name = some ⟨owner, name, v⟩ ↔
      OffersFirst s root owner name v := by
  rw [first?_eq_some_iff ordered_offersOf, mem_offersOf hroot h]
  refine and_congr_right fun _ => ⟨?_, fun hfirst => ⟨rfl, ?_⟩⟩
  · rintro ⟨-, hleast⟩ earlier w hlt hoffers
    exact hleast ⟨earlier, name, w⟩ ((mem_offersOf hroot h).mpr hoffers) rfl hlt
  · rintro ⟨earlier, _, w⟩ hother rfl hlt
    exact hfirst earlier w hlt ((mem_offersOf hroot h).mp hother)

theorem exists_first?_iff (hroot : root.WellFormed) (h : Answering s root) :
    (first? (offersOf s root) name).isSome = true ↔ ∃ owner v, Offers s root owner name v := by
  rw [first?, List.find?_isSome]
  constructor
  · rintro ⟨o, ho, hname⟩
    obtain rfl := of_decide_eq_true hname
    exact ⟨o.owner, o.value, (mem_offersOf hroot h).mp ho⟩
  · rintro ⟨owner, v, hoffers⟩
    exact ⟨⟨owner, name, v⟩, (mem_offersOf hroot h).mpr hoffers, decide_eq_true rfl⟩

theorem nodup_refused :
    ((refused root (offersOf s root)).map fun o => (o.owner, o.name)).Nodup := by
  refine List.pairwise_map.mpr ((ordered_offersOf.sublist List.filter_sublist).imp ?_)
  intro o o' hlt heq
  obtain ⟨howner, hname⟩ := Prod.mk.inj heq
  exact absurd howner (ne_of_lt (hlt hname))

/-- **The offers that are refused are those that are not taken.** -/
theorem mem_refused {owner : String} (hroot : root.WellFormed) (h : Answering s root) :
    (owner, name) ∈ (refused root (offersOf s root)).map (fun o => (o.owner, o.name)) ↔
      ∃ v, Offers s root owner name v ∧
        ¬ (root.get? name = none ∧ OffersFirst s root owner name v) := by
  have htaken : ∀ v, Offers s root owner name v →
      ((!isTaken root (offersOf s root) ⟨owner, name, v⟩) = true ↔
        ¬ (root.get? name = none ∧ OffersFirst s root owner name v)) := by
    intro v hoffers
    rw [Bool.not_eq_true', ← Bool.not_eq_true,
      isTaken_iff ordered_offersOf ((mem_offersOf hroot h).mpr hoffers), first?_offersOf hroot h]
  rw [List.mem_map]
  constructor
  · rintro ⟨⟨owner, name, v⟩, ho, ⟨⟩⟩
    obtain ⟨ho, hrefused⟩ := List.mem_filter.mp ho
    have hoffers := (mem_offersOf hroot h).mp ho
    exact ⟨v, hoffers, (htaken v hoffers).mp hrefused⟩
  · rintro ⟨v, hoffers, hrefused⟩
    refine ⟨⟨owner, name, v⟩, List.mem_filter.mpr ⟨?_, (htaken v hoffers).mpr hrefused⟩, rfl⟩
    exact (mem_offersOf hroot h).mpr hoffers

/-! ## Extended trees -/

omit [ObjectClass σ] in
theorem lasting_referring :
    Progress.Lasting (fun _ => True) (Progress.Referring (σ := σ)) where
  steady _ note hp := by cases note <;> exact ⟨hp.inUse, hp.apart⟩
  objects _ _ _ _ _ := trivial
  published _ _ _ hp := Progress.referring_published hp
  table _ _ hp := ⟨hp.inUse, hp.apart⟩
  added _ _ _ _ hp := ⟨hp.inUse, hp.apart⟩
  finished _ _ _ _ hp := ⟨hp.inUse, hp.apart⟩

/-- **Names have slots of their own when a tree is to be extended**, whatever callbacks do. -/
theorem referring_finished (dir : Path) (d : Dict Value) {p q : Progress σ}
    {r : Except Crash (Dict Value)} (hp : p.Referring)
    (hrun : Action.run (do
      let d ← (anchored dir).run 0 d
      let d ← expanded.run revisitLimit d
      let d ← instantiated.run 0 d
      finished.run 0 d) setting p = (r, q)) : q.Referring := by
  have hinv := lasting_referring (σ := σ)
  have hinstantiated (d : Dict Value) : Safe Progress.Referring True setting (fun _ => True)
      (instantiated.run 0 d : Action σ _) :=
    safe_run_instantiated hinv (fun _ _ _ => yields_true _) (fun _ _ _ => trivial) d
  have hfinished (d : Dict Value) : Safe Progress.Referring True setting (fun _ => True)
      (finished.run 0 d : Action σ _) :=
    safe_run_finished hinv (fun _ _ _ => ⟨fun _ _ => trivial, fun _ _ => trivial⟩) d
  have hsteps := (safe_run_anchored hinv dir d).andThen fun d =>
    (safe_run_expanded hinv d).andThen fun d => (hinstantiated d).andThen hfinished
  exact (hsteps p r q hp hrun).1

/-- **An extension loses and overwrites nothing.** What the root held stays, and it gains exactly
the names that its objects offer beside that, each with the value of the first object in key order
that offers it. This value is what the handle of the name shows; names keep their handles, and the
handles of all other names show what they did. Every offer that was not taken is told of once. Names
have slots of their own in any compile that comes this far, by `referring_finished`. -/
theorem extended_joins (setting : Setting σ) (hroot : root.WellFormed)
    (h : Answering p.store root) (hp : p.Referring) :
    ∃ out q, (extended root).run setting p = (.ok out, q) ∧
      (∀ name v, root.get? name = some v → out.get? name = some v) ∧
      (∀ name, root.get? name = none → ∀ v, out.get? name = some v ↔
        ∃ owner, OffersFirst p.store root owner name v) ∧
      (∀ name, (out.get? name).isSome = true ↔ (root.get? name).isSome = true ∨
        ∃ owner v, Offers p.store root owner name v) ∧
      (∀ name v, root.get? name = none → out.get? name = some v → q.shown? name = some v) ∧
      (∀ name, root.get? name ≠ none ∨ out.get? name = none → q.shown? name = p.shown? name) ∧
      (∀ name h, p.references.get? name = some h → q.references.get? name = some h) ∧
      ∃ refused : List (String × String), refused.Nodup ∧
        (∀ owner name, (owner, name) ∈ refused ↔ ∃ v, Offers p.store root owner name v ∧
          ¬ (root.get? name = none ∧ OffersFirst p.store root owner name v)) ∧
        q.errors.toList = p.errors.toList ++
          refused.map fun offer => ⟨.resolution, "/" ++ offer.2,
            s!"sibling resource of '{offer.1}' collides with an existing entry"⟩ := by
  have hv : ∀ o ∈ offersOf p.store root, o.value ≠ .null := by
    intro o ho
    obtain ⟨u, d, hu, hd, hget⟩ := (mem_offersOf hroot h).mp ho
    obtain ⟨hwf, hnull⟩ := h.wellFormed _ u d hu hd
    exact hnull _ ((Dict.get?_eq_some_iff hwf).mp hget)
  have hjoins : Joins root p (offersOf p.store root) _ := joins_foldl hp ordered_offersOf hv
  have hget := hjoins.get?
  refine ⟨_, _, run_extended hroot h, fun name v hname => ?_, fun name hname v => ?_,
    fun name => ?_, fun name v hname hv => ?_, fun name hname => ?_, hjoins.handles,
    _, nodup_refused, fun owner name => mem_refused hroot h, ?_⟩
  · rw [hget, hname, Option.some_or]
  · rw [hget, hname, Option.none_or, Option.map_eq_some_iff]
    constructor
    · rintro ⟨o, hfirst, rfl⟩
      obtain rfl := name_of_first? hfirst
      exact ⟨o.owner, (first?_offersOf hroot h).mp hfirst⟩
    · rintro ⟨owner, hfirst⟩
      exact ⟨_, (first?_offersOf hroot h).mpr hfirst, rfl⟩
  · rw [hget, Option.isSome_or, Bool.or_eq_true, Option.isSome_map, exists_first?_iff hroot h]
  · rw [hget, hname, Option.none_or] at hv
    have hfree : ¬ root.contains name = true := by simp [Dict.contains, hname]
    rw [hjoins.shown?, if_neg hfree, hv, Option.some_or]
  · rw [hjoins.shown?]
    split_ifs with hthere
    · rfl
    · have hroot' := Option.not_isSome_iff_eq_none.mp hthere
      have hnone := hname.resolve_left (not_not.mpr hroot')
      rw [hget, hroot', Option.none_or] at hnone
      rw [hnone, Option.none_or]
  · rw [hjoins.errors, List.map_map]
    rfl

/-! ### Two things that offer the same -/

/-- A thing that offers some entries. -/
def offering (members : List (String × Value)) : Item :=
  .thing { Thing.fresh with siblings := .ofValues members }

/-- Two things. Both offer `c`, and the second one offers the name of the first one as well. -/
def twoThings : Store Item :=
  let first := (Store.empty.addObject "thing" (offering [("c", .bool true)])).2
  (first.addObject "thing" (offering [("a", .bool false), ("c", .bool false)])).2

/-- A root of the two things. -/
def twoRoot : Dict Value := .ofValues [("a", .object ⟨0, "thing"⟩), ("b", .object ⟨1, "thing"⟩)]

theorem mem_twoRoot {owner : String} {v : Value} (h : twoRoot.get? owner = some v) :
    owner = "a" ∧ v = .object ⟨0, "thing"⟩ ∨ owner = "b" ∧ v = .object ⟨1, "thing"⟩ := by
  have hmem : (owner, v) ∈ [("a", Value.object ⟨0, "thing"⟩), ("b", .object ⟨1, "thing"⟩)] :=
    (Dict.get?_eq_some_iff Dict.wellFormed_ofValues).mp h
  simpa using hmem

theorem answering_twoThings : Answering twoThings twoRoot where
  quiet _ ref object panic _ _ := by
    cases object <;> nofun
  wellFormed owner v d hv hd := by
    rcases mem_twoRoot hv with ⟨-, rfl⟩ | ⟨-, rfl⟩
    · obtain rfl := Option.some.inj hd
      exact ⟨Dict.wellFormed_ofValues, Dict.nullFree_ofValues⟩
    · obtain rfl := Option.some.inj hd
      exact ⟨Dict.wellFormed_ofValues, Dict.nullFree_ofValues⟩

theorem extended_twoThings_joins : twoRoot.WellFormed ∧ Answering twoThings twoRoot ∧
    ∃ out q, (extended twoRoot).run (Setting.of ⟨"/"⟩ false (FileView.of MemoryFiles.empty)
        Item.registry none) (Progress.initial twoThings) = (.ok out, q) ∧
      out.get? "a" = some (.object ⟨0, "thing"⟩) ∧ out.get? "c" = some (.bool true) ∧
      q.shown? "c" = some (.bool true) := by
  have hroot : twoRoot.WellFormed := Dict.wellFormed_ofValues
  obtain ⟨out, q, hrun, hkept, hgained, -, hshown, -⟩ := extended_joins
    (Setting.of ⟨"/"⟩ false (FileView.of MemoryFiles.empty) Item.registry none) hroot
    answering_twoThings (Progress.referring_initial twoThings)
  have hfirst : OffersFirst twoThings twoRoot "a" "c" (.bool true) := by
    refine ⟨⟨_, _, rfl, rfl, rfl⟩, fun earlier w hlt hoffers => ?_⟩
    obtain ⟨u, -, hu, -⟩ := hoffers
    rcases mem_twoRoot hu with ⟨rfl, -⟩ | ⟨rfl, -⟩
    · exact lt_irrefl _ hlt
    · exact absurd hlt (by decide)
  have hc : out.get? "c" = some (.bool true) := (hgained "c" rfl _).mpr ⟨"a", hfirst⟩
  exact ⟨hroot, answering_twoThings, out, q, hrun, hkept "a" _ rfl, hc,
    hshown "c" _ rfl hc⟩

end Compile

end ResourceTree
