import Mathlib.Data.Finset.Card
import ResourceTree.Example.Item
import ResourceTree.Proofs.Cache.Chains
import ResourceTree.Proofs.Store.Loops
import ResourceTree.Proofs.Value.Children

/-!
# Circles — handles that hold each other

A handle may hold a handle, and this one the first again: two names that refer to each other come
to that when both are loaded. Whether a value has children is asked of what its handles hold in the
end, so that there is an answer exactly when they do not come back to themselves. All else that can
be asked of a value looks through one handle only.

* `Handles.Shows`: what the holders of a handle see, at the end of its chain;
* `Handles.ComesTo`: where reading through handles ends; `ComesTo.unique`;
* `Handles.Circles`, `exists_equal_handles`: more handles one behind the other than there are slots;
* **`innermost?_eq_some_iff`**, `innermost?_isSome_iff`;
* `Handles.LooksThrough`, **`queries_end_iff`**: when queries have an answer;
* `System.circling`, `reachable_circling`: two names that refer to each other, when both are loaded.
-/

namespace ResourceTree

namespace Handles

open Relation (ReflTransGen TransGen)

variable {hs : Handles} {g h : Handle} {u v w : Value}

/-! ## Reading through handles -/

/-- A value is in the handle at the end of a chain. -/
def Shows (hs : Handles) (h : Handle) (w : Value) : Prop :=
  ∃ l, hs.LeadsTo h l ∧ hs.replacement? l = none ∧ hs.ownValue l = w

/-- A handle holds another one. -/
def Holds (hs : Handles) (g h : Handle) : Prop := hs.Shows g (.resource h)

/-- Reading through handles comes to a value that is none. -/
inductive ComesTo (hs : Handles) : Value → Value → Prop where
  | here {u : Value} (hu : u.kind ≠ .resource) : ComesTo hs u u
  | through {h : Handle} {w u : Value} (hshows : hs.Shows h w) (hrest : ComesTo hs w u) :
      ComesTo hs (.resource h) u

/-- The handles of a value come back to one of them. -/
def Circles (hs : Handles) (v : Value) : Prop :=
  ∃ g h, v = .resource g ∧ ReflTransGen hs.Holds g h ∧ TransGen hs.Holds h h

theorem shows_iff (hc : hs.ChainsEnd) : hs.Shows h w ↔ hs.value h = w := by
  constructor
  · rintro ⟨l, hl, hend, rfl⟩
    rw [value, latest_eq_of_leadsTo hc hl hend]
  · rintro rfl
    exact ⟨hs.latest h, leadsTo_follow _ h, hc h, rfl⟩

theorem holds_iff (hc : hs.ChainsEnd) : hs.Holds g h ↔ hs.value g = .resource h := shows_iff hc

theorem ComesTo.unique (hc : hs.ChainsEnd) (hu : hs.ComesTo v u) (hw : hs.ComesTo v w) :
    u = w := by
  induction hu with
  | here hkind =>
    cases hw with
    | here => rfl
    | through => exact absurd rfl hkind
  | through hshows _ ih =>
    cases hw with
    | here hkind => exact absurd rfl hkind
    | through hshows' hrest =>
      obtain rfl := ((shows_iff hc).mp hshows).symm.trans ((shows_iff hc).mp hshows')
      exact ih hrest

/-! ## Circles -/

theorem Circles.exists_holds (hcircles : hs.Circles v) :
    ∃ g h, v = .resource g ∧ hs.Holds g h ∧ hs.Circles (.resource h) := by
  obtain ⟨g, l, rfl, hl, hback⟩ := hcircles
  rcases ReflTransGen.cases_head hl with rfl | ⟨h, hg, hl⟩
  · obtain ⟨h, hg, hl⟩ := TransGen.head'_iff.mp hback
    exact ⟨g, h, rfl, hg, h, g, rfl, hl, hback⟩
  · exact ⟨g, h, rfl, hg, h, l, rfl, hl, hback⟩

theorem ComesTo.not_circles (hc : hs.ChainsEnd) (hu : hs.ComesTo v u) : ¬ hs.Circles v := by
  induction hu with
  | here hkind =>
    rintro ⟨g, -, rfl, -⟩
    exact hkind rfl
  | through hshows _ ih =>
    intro hcircles
    obtain ⟨_, h, ⟨⟩, hholds, hcircles⟩ := hcircles.exists_holds
    obtain rfl := ((shows_iff hc).mp hshows).symm.trans ((shows_iff hc).mp hholds)
    exact ih hcircles

/-- The handles that are read through, one behind the other, when so many are not enough. -/
theorem exists_handles_of_innermostWithin {steps : Nat}
    (hnone : hs.innermostWithin steps v = none) : ∃ f : Nat → Handle, v = .resource (f 0) ∧
    ∀ i < steps, hs.value (f i) = .resource (f (i + 1)) := by
  induction steps generalizing v with
  | zero =>
    cases v with
    | resource g => exact ⟨fun _ => g, rfl, nofun⟩
    | _ => cases hnone
  | succ steps ih =>
    cases v with
    | resource g =>
      obtain ⟨f, hfirst, hnext⟩ := ih hnone
      refine ⟨fun i => i.casesOn g f, rfl, fun i hi => ?_⟩
      cases i with
      | zero => exact hfirst
      | succ i => exact hnext i (Nat.lt_of_succ_lt_succ hi)
    | _ => cases hnone

theorem latest_slot_of_value (hg : hs.value g = .resource h) :
    ∃ i < hs.slots.size, (hs.latest g).slot = some i := by
  have hthere : (hs.slot? (hs.latest g)).isSome := by
    cases hslot : hs.slot? (hs.latest g) with
    | some slot => rfl
    | none =>
      rw [value, ownValue, hslot] at hg
      cases hg
  obtain ⟨i, hi⟩ := slot_isSome_of_slot? hthere
  exact ⟨i, lt_size_of_slot? hi hthere, hi⟩

theorem value_congr (hslot : (hs.latest g).slot = (hs.latest h).slot) :
    hs.value g = hs.value h := by
  rw [value, ownValue, slot?_congr hslot]
  rfl

/-- Of more handles one behind the other than there are slots, two are the same. -/
theorem exists_equal_handles {f : Nat → Handle}
    (hf : ∀ i < hs.slots.size + 1, hs.value (f i) = .resource (f (i + 1))) :
    ∃ i j, i < j ∧ j < hs.slots.size + 1 ∧ f (i + 1) = f (j + 1) := by
  choose! slotAt hlt hslotAt using fun i (hi : i < hs.slots.size + 1) =>
    latest_slot_of_value (hf i hi)
  have hsame : ∀ i < hs.slots.size + 1, ∀ j < hs.slots.size + 1, slotAt i = slotAt j →
      f (i + 1) = f (j + 1) := by
    intro i hi j hj heq
    have hslot : (hs.latest (f i)).slot = (hs.latest (f j)).slot := by
      rw [hslotAt i hi, hslotAt j hj, heq]
    have hvalue := value_congr hslot
    rw [hf i hi, hf j hj] at hvalue
    exact Value.resource.inj hvalue
  obtain ⟨i, hi, j, hj, hne, heq⟩ := Finset.exists_ne_map_eq_of_card_lt_of_maps_to
    (s := Finset.range (hs.slots.size + 1)) (t := Finset.range hs.slots.size) (f := slotAt)
    (by simp) fun i hi => by
      rw [Finset.coe_range, Set.mem_Iio] at hi ⊢
      exact hlt i hi
  rw [Finset.mem_range] at hi hj
  rcases Nat.lt_or_gt_of_ne hne with hij | hij
  · exact ⟨i, j, hij, hj, hsame i hi j hj heq⟩
  · exact ⟨j, i, hij, hi, hsame j hj i hi heq.symm⟩

theorem circles_of_innermost? (hc : hs.ChainsEnd) (hnone : hs.innermost? v = none) :
    hs.Circles v := by
  obtain ⟨f, rfl, hnext⟩ := exists_handles_of_innermostWithin hnone
  have hholds : ∀ i < hs.slots.size + 1, hs.Holds (f i) (f (i + 1)) := fun i hi =>
    (holds_iff hc).mpr (hnext i hi)
  have hreads : ∀ i j, i ≤ j → j < hs.slots.size + 2 → ReflTransGen hs.Holds (f i) (f j) := by
    intro i j hij hj
    induction j, hij using Nat.le_induction with
    | base => exact .refl
    | succ j hij ih => exact (ih (by omega)).tail (hholds j (by omega))
  obtain ⟨i, j, hij, hj, heq⟩ := exists_equal_handles hnext
  refine ⟨f 0, f (j + 1), rfl, hreads 0 (j + 1) (by omega) (by omega), ?_⟩
  have hback : TransGen hs.Holds (f (i + 1)) (f (j + 1)) :=
    .tail' (hreads (i + 1) j hij (by omega)) (hholds j hj)
  rwa [heq] at hback

theorem comesTo_of_innermostWithin (hc : hs.ChainsEnd) {steps : Nat}
    (hu : hs.innermostWithin steps v = some u) : hs.ComesTo v u := by
  induction steps generalizing v with
  | zero =>
    cases v with
    | resource g => cases hu
    | _ =>
      obtain rfl := Option.some.inj hu
      exact .here Kind.noConfusion
  | succ steps ih =>
    cases v with
    | resource g => exact .through ((shows_iff hc).mpr rfl) (ih hu)
    | _ =>
      obtain rfl := Option.some.inj hu
      exact .here Kind.noConfusion

/-- **So many steps are enough**: what a value stands for is where reading through its handles
ends. -/
theorem innermost?_eq_some_iff (hc : hs.ChainsEnd) :
    hs.innermost? v = some u ↔ hs.ComesTo v u := by
  refine ⟨comesTo_of_innermostWithin hc, fun hu => ?_⟩
  cases hinner : hs.innermost? v with
  | none => exact absurd (circles_of_innermost? hc hinner) (hu.not_circles hc)
  | some w => rw [hu.unique hc (comesTo_of_innermostWithin hc hinner)]

theorem innermost?_isSome_iff (hc : hs.ChainsEnd) :
    (hs.innermost? v).isSome ↔ ¬ hs.Circles v := by
  constructor
  · intro hsome
    obtain ⟨u, hu⟩ := Option.isSome_iff_exists.mp hsome
    exact ((innermost?_eq_some_iff hc).mp hu).not_circles hc
  · intro hnot
    rw [Option.isSome_iff_ne_none]
    exact fun hnone => hnot (circles_of_innermost? hc hnone)

theorem innermost?_of_shows (hc : hs.ChainsEnd) (hw : hs.Shows h w) :
    hs.innermost? (.resource h) = hs.innermost? w := by
  refine Option.ext fun u => ?_
  rw [innermost?_eq_some_iff hc, innermost?_eq_some_iff hc]
  constructor
  · intro hu
    cases hu with
    | here hkind => exact absurd rfl hkind
    | through hshows hrest =>
      obtain rfl := ((shows_iff hc).mp hw).symm.trans ((shows_iff hc).mp hshows)
      exact hrest
  · exact .through hw

/-! ## Queries -/

/-- What is asked of a handle is asked of the value that it shows. Only whether there are children
is asked on where that is a handle again. -/
structure LooksThrough (hs : Handles) (h : Handle) (w : Value) : Prop where
  hasNamed : hs.hasNamedChildren (.resource h) = hs.hasNamedChildren w
  hasIndexed : hs.hasIndexedChildren (.resource h) = hs.hasIndexedChildren w
  named : ∀ name, hs.namedChild? (.resource h) name =
    if w.kind = .resource then none else hs.namedChild? w name
  indexed : ∀ i, hs.indexedChild? (.resource h) i =
    if w.kind = .resource then none else hs.indexedChild? w i
  count : hs.childCount (.resource h) = if w.kind = .resource then 0 else hs.childCount w
  names : hs.childNames (.resource h) = if w.kind = .resource then [] else hs.childNames w
  convert : ∀ target, target ≠ .resource → hs.convert (.resource h) target =
    if w.kind = .resource then none else hs.convert w target

theorem plain?_of_kind (hu : u.kind ≠ .resource) : hs.plain? u = some u :=
  plain?_eq_some_iff.mpr ⟨hu, .inl rfl⟩

theorem plain?_resource : hs.plain? (.resource h) =
    if (hs.value h).kind = .resource then none else some (hs.value h) := by
  rw [plain?]
  cases hs.value h <;> rfl

theorem convert_of_plain (h : hs.plain? v = some u) {target : Kind} (htarget : v.kind ≠ target) :
    hs.convert v target = u.convertPlain target := by
  rw [convert, if_neg htarget, h]
  rfl

theorem looksThrough (hc : hs.ChainsEnd) (hw : hs.Shows h w) : hs.LooksThrough h w := by
  have hinner := innermost?_of_shows hc hw
  obtain rfl := (shows_iff hc).mp hw
  have hplain : hs.plain? (.resource h) = _ := plain?_resource
  by_cases hkind : (hs.value h).kind = .resource
  · rw [if_pos hkind] at hplain
    have hconvert : ∀ target, target ≠ .resource → hs.convert (.resource h) target = none := by
      intro target htarget
      have hother : (Value.resource h).kind ≠ target := htarget.symm
      rw [convert, if_neg hother, hplain]
      rfl
    constructor
    case hasNamed => rw [hasNamedChildren, hinner, hasNamedChildren]
    case hasIndexed => rw [hasIndexedChildren, hinner, hasIndexedChildren]
    case named => intro name; rw [if_pos hkind, namedChild?, hplain]
    case indexed => intro i; rw [if_pos hkind, indexedChild?, hplain]
    case count => rw [if_pos hkind, childCount, hplain]
    case names => rw [if_pos hkind, childNames, toDict?, hconvert .dict Kind.noConfusion]; rfl
    case convert => intro target htarget; rw [if_pos hkind, hconvert target htarget]
  · rw [if_neg hkind] at hplain
    have hself : hs.plain? (hs.value h) = _ := plain?_of_kind hkind
    constructor
    case hasNamed => rw [hasNamedChildren, hinner, hasNamedChildren]
    case hasIndexed => rw [hasIndexedChildren, hinner, hasIndexedChildren]
    case named =>
      intro name
      rw [if_neg hkind, namedChild?_of_plain hplain, namedChild?_of_plain hself]
    case indexed =>
      intro i
      rw [if_neg hkind, indexedChild?_of_plain hplain, indexedChild?_of_plain hself]
    case count => rw [if_neg hkind, childCount_of_plain hplain, childCount_of_plain hself]
    case names => rw [if_neg hkind, childNames_of_plain hplain, childNames_of_plain hself]
    case convert =>
      intro target htarget
      rw [if_neg hkind, convert_of_plain hplain htarget.symm, convert, hself]
      split_ifs with hsame
      · unfold Value.convertPlain
        exact if_pos hsame
      · rfl

/-- **Whether a value has children is answered** exactly when its handles do not come back to one
of them; what its children are is answered always, from the end of one chain. -/
theorem queries_end_iff (hc : hs.ChainsEnd) (v : Value) :
    ((hs.hasNamedChildren v).isSome ↔ ¬ hs.Circles v) ∧
      ((hs.hasIndexedChildren v).isSome ↔ ¬ hs.Circles v) ∧
      ∀ h, v = .resource h → ∃ w, hs.Shows h w ∧ hs.LooksThrough h w := by
  refine ⟨?_, ?_, ?_⟩
  · rw [hasNamedChildren, Option.isSome_map]
    exact innermost?_isSome_iff hc
  · rw [hasIndexedChildren, Option.isSome_map]
    exact innermost?_isSome_iff hc
  · rintro h rfl
    have hshows : hs.Shows h (hs.value h) := (shows_iff hc).mpr rfl
    exact ⟨_, hshows, looksThrough hc hshows⟩

end Handles

/-! ## Two names that refer to each other -/

namespace System

/-- Each of two names refers to the other. -/
def references : Dict Value :=
  ⟨.flat, [("a", .resource ⟨"b", some 0⟩), ("b", .resource ⟨"a", some 1⟩)]⟩

/-- The program has made a handle that is given no value. -/
def withPlaceholder (s : System Item) (name : String) : System Item :=
  { s with
    store := (s.store.newHandle name .null).2
    held := s.held ++ (s.store.newHandle name .null).1.links }

/-- The entries are served, and the program has asked for the first name. -/
def firstAsked : System Item :=
  (((start 0 .empty).withPlaceholder "b").withPlaceholder "a").act
    (Cache.setResources references) |>.take "a"

/-- The load of the first name, and that of the second. -/
def firstFlight : Flight Item := ⟨⟨"a", ⟨1, 0⟩⟩, 0, none⟩

def secondFlight : Flight Item := ⟨⟨"b", ⟨2, 0⟩⟩, 0, none⟩

/-- What a load of a reference has left to do: asking for its name. -/
def asking (name : String) : Conversion Item Value :=
  .handle name fun answer => .done (.resource answer)

/-- The load of the first name has asked for the second, and completes. -/
def firstLoaded : System Item :=
  let asked :=
    (firstAsked.goOn [] [] (firstFlight.working (.done (.resource ⟨"b", some 3⟩)))).ask "b"
  act { asked with flights := [secondFlight] }
    (Cache.completeLoad firstFlight.load (.ok (.resource ⟨"b", some 3⟩)) >>= fun _ =>
      Cache.endLoad)

/-- The load of the second name has asked for the first, and completes. -/
def circling : System Item :=
  let asked :=
    (firstLoaded.goOn [] [] (secondFlight.working (.done (.resource ⟨"a", some 4⟩)))).ask "a"
  act { asked with flights := [] }
    (Cache.completeLoad secondFlight.load (.ok (.resource ⟨"a", some 4⟩)) >>= fun _ =>
      Cache.endLoad)

theorem reachable_circling : Reachable circling := by
  have hasked : Reachable firstAsked :=
    ((((Reachable.start 0 .empty).step (.newHandle "b" .null)).step (.newHandle "a" .null)).step
      (.setResources references)).step (.getResource "a")
  have hloaded : Reachable firstLoaded :=
    ((hasked.step (.read [] [] firstFlight rfl rfl)).step
      (.request [] [] (firstFlight.working (asking "b")) "b" _ rfl rfl)).step
        (.complete [] [secondFlight] (firstFlight.working _) _ _ rfl rfl rfl)
  exact ((hloaded.step (.read [] [] secondFlight rfl rfl)).step
    (.request [] [] (secondFlight.working (asking "a")) "a" _ rfl rfl)).step
      (.complete [] [] (secondFlight.working _) _ _ rfl rfl rfl)

theorem chainsEnd_circling : circling.store.handles.ChainsEnd :=
  reachable_circling.links.forward.chainsEnd

theorem queries_end_iff_circling : circling.store.handles.ChainsEnd ∧
    circling.store.handles.Circles (.resource ⟨"a", some 2⟩) := by
  refine ⟨chainsEnd_circling, not_not.mp fun hnot => ?_⟩
  have hsome := (Handles.queries_end_iff chainsEnd_circling (.resource ⟨"a", some 2⟩)).1.mpr hnot
  cases hsome

/-- **A cache may give out a handle of which nobody can ask whether it has children.** -/
theorem not_answered_circling : ¬ ∀ (s : System Item) (v : Value), Reachable s →
    s.store.handles.ChainsEnd → (s.store.handles.hasNamedChildren v).isSome ∧
      (s.store.handles.hasIndexedChildren v).isSome := by
  intro hall
  have hsome := (hall circling (.resource ⟨"a", some 2⟩) reachable_circling chainsEnd_circling).1
  cases hsome

end System

end ResourceTree
