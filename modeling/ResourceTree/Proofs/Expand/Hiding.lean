import ResourceTree.Proofs.Expand.Beneath

/-!
# Hiding — templates that are found through what lies on top

A template is looked up by a path among the named values of the dictionary that it stands on, and
these are laid over each other one level deep. So named values on top hide what a path leads to only
if they have the name that the path begins with, or are no dictionary.

* `Handles.findPath_eq`, `findPath_of_head`: a path depends on the name that it begins with;
* `Spares`, `spares_layer`: dictionaries that hide nothing from a path;
* `ownFind`, `ownFind_layer_below`, `ownFind_layer_self`, `ownFind_layers`: what a path leads to
  in layers;
* `TemplateShown`, **`templateOf_layers`**: a template that is found in layers as in its file.
-/

namespace ResourceTree

namespace Handles

variable {hs : Handles} {values other : Dict Value} {path : String}

theorem findPath_eq : hs.findPath values path =
    match Step.parsePath? path with
    | some (.member name :: rest) => (values.get? name).bind (hs.descend · rest)
    | _ => none := by
  unfold findPath
  rcases Step.parsePath? path with - | - | ⟨- | -, rest⟩ <;> rfl

theorem findPath_of_head (h : ∀ name rest, Step.parsePath? path = some (.member name :: rest) →
    values.get? name = other.get? name) : hs.findPath values path = hs.findPath other path := by
  rw [findPath_eq, findPath_eq]
  split
  · next name rest hparse => rw [h name rest hparse]
  · rfl

theorem findPath_of_headless (h : ∀ name rest, Step.parsePath? path = some (.member name :: rest) →
    values.get? name = none) : hs.findPath values path = none := by
  rw [findPath_eq]
  split
  · next name rest hparse => rw [h name rest hparse, Option.bind_none]
  · rfl

theorem contains_head_of_findPath {v : Value} (h : hs.findPath values path = some v)
    {rest : List Step} {name : String}
    (hparse : Step.parsePath? path = some (.member name :: rest)) : ∃ w, values.get? name = some w := by
  rw [findPath_eq, hparse] at h
  obtain ⟨w, hw, -⟩ := Option.bind_eq_some_iff.mp h
  exact ⟨w, hw⟩

end Handles

namespace Compile

variable {hs : Handles} {place : Place} {d e f g u under : Dict Value}
  {before after fs : List (Dict Value)} {name path : String}

/-! ## Named values on top -/

/-- What a path leads to among the named values of a dictionary. -/
def ownFind (hs : Handles) (d : Dict Value) (path : String) : Option Value :=
  (ownValues hs d).bind fun values => hs.findPath values path

/-- **A dictionary hides nothing from a path**: its named values, if there are any, are a dictionary
without the name that the path begins with. -/
def Spares (hs : Handles) (path : String) (d : Dict Value) : Prop :=
  ∀ v, d.get? Reserved.values = some v → ∃ values, hs.toDict? v = some values ∧
    ∀ name rest, Step.parsePath? path = some (.member name :: rest) → values.get? name = none

theorem layer_eq_merged (h : ownValues hs f = none ∨ ownValues hs d = none) :
    layer hs f d = Dict.merged f d := by
  unfold layer
  rcases h with h | h
  · rw [h]
  · rw [h]
    cases ownValues hs f <;> rfl

theorem get?_values_layer (hd : d.WellFormed ∧ d.NullFree)
    (h : ownValues hs f = none ∨ ownValues hs d = none) :
    (layer hs f d).get? Reserved.values =
      (d.get? Reserved.values).or (f.get? Reserved.values) := by
  rw [layer_eq_merged h, Dict.get?_merged hd.1 hd.2]

theorem ownFind_congr (h : d.get? Reserved.values = e.get? Reserved.values) :
    ownFind hs d path = ownFind hs e path := by
  unfold ownFind ownValues
  rw [h]

theorem ownFind_of_none (h : ownValues hs d = none) : ownFind hs d path = none := by
  rw [ownFind, h, Option.bind_none]

theorem ownFind_of_some {values : Dict Value} (h : ownValues hs d = some values) :
    ownFind hs d path = hs.findPath values path := by
  rw [ownFind, h, Option.bind_some]

theorem ownValues_of_none (h : d.get? Reserved.values = none) : ownValues hs d = none := by
  rw [ownValues, h, Option.bind_none]

namespace Spares

theorem of_none (h : d.get? Reserved.values = none) : Spares hs path d :=
  fun _ hget => nomatch h.symm.trans hget

theorem get?_eq_none {values rest} (h : Spares hs path d) (hvalues : ownValues hs d = some values)
    (hparse : Step.parsePath? path = some (.member name :: rest)) : values.get? name = none := by
  obtain ⟨v, hget, hv⟩ := Option.bind_eq_some_iff.mp hvalues
  obtain ⟨_, hother, hhead⟩ := h v hget
  obtain rfl := Option.some.inj (hother.symm.trans hv)
  exact hhead name rest hparse

theorem ownFind_eq_none (h : Spares hs path d) : ownFind hs d path = none := by
  cases hvalues : ownValues hs d with
  | none => exact ownFind_of_none hvalues
  | some values =>
    rw [ownFind_of_some hvalues]
    exact Handles.findPath_of_headless fun _ _ => h.get?_eq_none hvalues

theorem get?_values_eq_none (h : Spares hs path d) (hvalues : ownValues hs d = none) :
    d.get? Reserved.values = none := by
  cases hget : d.get? Reserved.values with
  | none => rfl
  | some v =>
    obtain ⟨values, hv, -⟩ := h v hget
    rw [ownValues, hget, Option.bind_some, hv] at hvalues
    cases hvalues

end Spares

section Orderly

variable (hhs : hs.Orderly)

include hhs

theorem ownValues_layer {lower upper : Dict Value} (hd : (Value.dict d).WellFormed)
    (hlower : ownValues hs f = some lower) (hupper : ownValues hs d = some upper) :
    (layer hs f d).get? Reserved.values = some (.dict (Dict.merged lower upper)) ∧
      ownValues hs (layer hs f d) = some (Dict.merged lower upper) ∧
      ∀ name, (Dict.merged lower upper).get? name = (upper.get? name).or (lower.get? name) := by
  have hwf : (Value.dict upper).WellFormed := wellFormed_ownValues hhs hd hupper
  have hget : (layer hs f d).get? Reserved.values = some (.dict (Dict.merged lower upper)) := by
    unfold layer
    rw [hlower, hupper]
    dsimp only
    rw [Dict.set_of_ne_null (by simp), Dict.get?_insert_self]
  refine ⟨hget, ?_, fun name => Dict.get?_merged hwf.root hwf.nullFree⟩
  rw [ownValues, hget, Option.bind_some, Handles.toDict?_dict]

theorem spares_layer (hd : (Value.dict d).WellFormed) (hf : Spares hs path f)
    (h : Spares hs path d) : Spares hs path (layer hs f d) := by
  intro v hv
  by_cases hnone : ownValues hs f = none ∨ ownValues hs d = none
  · rw [get?_values_layer (clean_of_wellFormed hd) hnone, Option.or_eq_some_iff] at hv
    rcases hv with hv | ⟨-, hv⟩
    · exact h v hv
    · exact hf v hv
  · obtain ⟨hlower, hupper⟩ := not_or.mp hnone
    obtain ⟨lower, hlower⟩ := Option.ne_none_iff_exists'.mp hlower
    obtain ⟨upper, hupper⟩ := Option.ne_none_iff_exists'.mp hupper
    obtain ⟨hget, -, hmerged⟩ := ownValues_layer hhs hd hlower hupper
    obtain rfl := Option.some.inj (hget.symm.trans hv)
    refine ⟨_, Handles.toDict?_dict hs _, fun name rest hparse => ?_⟩
    rw [hmerged, h.get?_eq_none hupper hparse, hf.get?_eq_none hlower hparse, Option.or_none]

/-- A dictionary that spares a path lets see what is below. -/
theorem ownFind_layer_below (hd : (Value.dict d).WellFormed) (h : Spares hs path d) :
    ownFind hs (layer hs f d) path = ownFind hs f path := by
  cases hlower : ownValues hs f with
  | none =>
    have hvalues := get?_values_layer (clean_of_wellFormed hd) (.inl hlower)
    rw [ownFind_of_none hlower]
    cases hget : d.get? Reserved.values with
    | none =>
      rw [hget, Option.none_or] at hvalues
      rw [ownFind_congr hvalues, ownFind_of_none hlower]
    | some v =>
      rw [hget, Option.some_or, ← hget] at hvalues
      rw [ownFind_congr hvalues, h.ownFind_eq_none]
  | some lower =>
    cases hupper : ownValues hs d with
    | none =>
      refine ownFind_congr ?_
      rw [get?_values_layer (clean_of_wellFormed hd) (.inr hupper), h.get?_values_eq_none hupper,
        Option.none_or]
    | some upper =>
      obtain ⟨-, hown, hmerged⟩ := ownValues_layer hhs hd hlower hupper
      rw [ownFind_of_some hown, ownFind_of_some hlower]
      refine Handles.findPath_of_head fun name rest hparse => ?_
      rw [hmerged, h.get?_eq_none hupper hparse, Option.none_or]

/-- What is below a dictionary hides nothing, and if it spares a path it adds nothing. -/
theorem ownFind_layer_self (hd : (Value.dict d).WellFormed)
    (h : Spares hs path f ∨ (ownFind hs d path).isSome = true) :
    ownFind hs (layer hs f d) path = ownFind hs d path := by
  cases hupper : ownValues hs d with
  | none =>
    have hvalues : (layer hs f d).get? Reserved.values =
        (d.get? Reserved.values).or (f.get? Reserved.values) :=
      get?_values_layer (clean_of_wellFormed hd) (.inr hupper)
    rw [ownFind_of_none hupper] at h ⊢
    have hspares : Spares hs path f := h.resolve_right (by simp)
    cases hget : d.get? Reserved.values with
    | none =>
      rw [hget, Option.none_or] at hvalues
      rw [ownFind_congr hvalues, hspares.ownFind_eq_none]
    | some v =>
      rw [hget, Option.some_or, ← hget] at hvalues
      rw [ownFind_congr hvalues, ownFind_of_none hupper]
  | some upper =>
    cases hlower : ownValues hs f with
    | none =>
      obtain ⟨v, hget, -⟩ := Option.bind_eq_some_iff.mp hupper
      refine ownFind_congr ?_
      rw [get?_values_layer (clean_of_wellFormed hd) (.inl hlower), hget, Option.some_or]
    | some lower =>
      obtain ⟨-, hown, hmerged⟩ := ownValues_layer hhs hd hlower hupper
      rw [ownFind_of_some hupper] at h ⊢
      rw [ownFind_of_some hown]
      refine Handles.findPath_of_head fun name rest hparse => ?_
      rw [hmerged]
      rcases h with hspares | hfound
      · rw [hspares.get?_eq_none hlower hparse, Option.or_none]
      · obtain ⟨v, hv⟩ := Option.isSome_iff_exists.mp hfound
        obtain ⟨w, hw⟩ := Handles.contains_head_of_findPath hv hparse
        rw [hw, Option.some_or]

theorem ownFind_layers_self (hd : (Value.dict d).WellFormed)
    (hfs : ∀ g ∈ fs, (Value.dict g).WellFormed)
    (h : (∀ g ∈ fs, Spares hs path g) ∨ (ownFind hs d path).isSome = true) :
    ownFind hs (layers hs fs d) path = ownFind hs d path := by
  induction fs generalizing d with
  | nil => rfl
  | cons g fs ih =>
    obtain ⟨hg, hfs⟩ := List.forall_mem_cons.mp hfs
    rw [List.forall_mem_cons] at h
    have hself : ownFind hs (layer hs g d) path = ownFind hs d path :=
      ownFind_layer_self hhs hd (h.imp_left And.left)
    have hrest : ownFind hs (layers hs fs (layer hs g d)) path =
        ownFind hs (layer hs g d) path :=
      ih (wellFormed_layer hhs hg hd) hfs (h.imp And.right (hself ▸ ·))
    exact hrest.trans hself

/-- **What a path leads to in layers**: what it leads to in one of them, if those on top hide
nothing from it and those below add nothing. -/
theorem ownFind_layers (hu : (Value.dict u).WellFormed)
    (hfs : ∀ g ∈ before ++ f :: after, (Value.dict g).WellFormed)
    (htop : ∀ g ∈ u :: before, Spares hs path g)
    (h : (∀ g ∈ after, Spares hs path g) ∨ (ownFind hs f path).isSome = true) :
    ownFind hs (layers hs (before ++ f :: after) u) path = ownFind hs f path := by
  induction before generalizing u with
  | nil =>
    obtain ⟨hf, hafter⟩ := List.forall_mem_cons.mp hfs
    have hbelow : ownFind hs (layer hs f u) path = ownFind hs f path :=
      ownFind_layer_below hhs hu (htop u List.mem_cons_self)
    have hself : ownFind hs (layers hs after (layer hs f u)) path =
        ownFind hs (layer hs f u) path :=
      ownFind_layers_self hhs (wellFormed_layer hhs hf hu) hafter (hbelow ▸ h)
    exact hself.trans hbelow
  | cons g before ih =>
    obtain ⟨hg, hfs⟩ := List.forall_mem_cons.mp hfs
    simp only [List.forall_mem_cons] at htop
    obtain ⟨hutop, hgtop, htop⟩ := htop
    exact ih (wellFormed_layer hhs hg hu) hfs
      (List.forall_mem_cons.mpr ⟨spares_layer hhs hu hgtop hutop, htop⟩)

/-! ## Templates -/

omit hhs in
theorem templateOf_eq (hd : d.WellFormed) : templateOf hs place d =
    ((d.get? Reserved.template).bind Value.asString?).bind fun path =>
      ((ownFind hs d path).or (place.lookup hs path)).bind hs.toDict? := by
  have herased : ownFind hs (d.erase Reserved.template) = ownFind hs d := by
    funext path
    refine ownFind_congr ?_
    rw [Dict.get?_erase hd, if_neg (by decide)]
  have hfind : findTemplate hs place (d.erase Reserved.template) = fun path =>
      ((ownFind hs d path).or (place.lookup hs path)).bind hs.toDict? := by
    rw [← herased]
    rfl
  rw [templateOf, hfind, Option.bind_assoc]

/-- **Nothing hides the template of a file** that lies under a dictionary, between other files: none
on top has a template, or hides anything from its path. Those below do not add what the path leads
to, unless the file says that itself. -/
def TemplateShown (hs : Handles) (u : Dict Value) (before after : List (Dict Value))
    (f : Dict Value) : Prop :=
  ∀ path, (f.get? Reserved.template).bind Value.asString? = some path →
    (∀ g ∈ u :: before, g.get? Reserved.template = none ∧ Spares hs path g) ∧
    ((∀ g ∈ after, Spares hs path g) ∨ (ownFind hs f path).isSome = true)

/-- **A template that nothing hides is found** as it would be in its file. -/
theorem templateOf_layers (hu : (Value.dict u).WellFormed)
    (hfs : ∀ g ∈ before ++ f :: after, (Value.dict g).WellFormed)
    (hshown : TemplateShown hs u before after f) (h : templateOf hs place f = some under) :
    templateOf hs place (layers hs (before ++ f :: after) u) = some under := by
  have hclean : ∀ g ∈ before ++ f :: after, g.WellFormed ∧ g.NullFree :=
    fun g hg => clean_of_wellFormed (hfs g hg)
  have hlayers : (layers hs (before ++ f :: after) u).WellFormed :=
    (wellFormed_layers hhs hu hfs).root
  rw [templateOf_eq (hfs f (by simp)).root] at h
  obtain ⟨path, hpath, hfound⟩ := Option.bind_eq_some_iff.mp h
  obtain ⟨htop, hbelow⟩ := hshown path hpath
  obtain ⟨⟨hnone, -⟩, hbefore⟩ := List.forall_mem_cons.mp htop
  -- the first layer with a template is the file
  have htemplate : (layers hs (before ++ f :: after) u).get? Reserved.template =
      f.get? Reserved.template := by
    obtain ⟨v, hv, -⟩ := Option.bind_eq_some_iff.mp hpath
    have hskip : before.findSome? (·.get? Reserved.template) = none :=
      List.findSome?_eq_none_iff.mpr fun g hg => (hbefore g hg).1
    rw [get?_layers (clean_of_wellFormed hu) hclean (by decide), hnone, Option.none_or,
      List.findSome?_append, hskip, Option.none_or, List.findSome?_cons, hv]
  rw [templateOf_eq hlayers, htemplate, hpath, Option.bind_some,
    ownFind_layers hhs hu hfs (fun g hg => (htop g hg).2) hbelow, hfound]

end Orderly

end Compile

end ResourceTree
