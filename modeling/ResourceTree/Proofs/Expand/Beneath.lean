import ResourceTree.Proofs.Expand.Resolution
import ResourceTree.Proofs.Expand.Rounds

/-!
# Beneath — what a dictionary is laid over, and the names that come of it

A dictionary under another one loses no name. So the names of a dictionary after some rounds are its
own and those of all that it was laid over, but for the import and the template that each round
makes use of.

* `contains_layer`, `contains_layers`: names of layers;
* `importedBy`, `templateOf`, **`beneath`**: what a dictionary is laid over in one round;
* `contains_laidOver`, **`contains_afterRounds`**: names after one round, and after some;
* `Covers`, `covers_settled`: no name is lost.
-/

namespace ResourceTree

namespace Compile

open ResourceTree.Action

variable {σ : Type} {setting : Setting σ} {hs : Handles} {place : Place} {d e f g : Dict Value}
  {fs : List (Dict Value)} {target : Value} {name : String}

/-! ## Names of layers -/

theorem contains_erase {other : String} (hd : d.WellFormed) (hname : name ≠ other) :
    (d.erase other).contains name = d.contains name := by
  rw [Dict.contains, Dict.get?_erase hd, if_neg hname, Dict.contains]

theorem contains_ownValues {values : Dict Value} (h : ownValues hs d = some values) :
    d.contains Reserved.values = true := by
  obtain ⟨v, hget, -⟩ := Option.bind_eq_some_iff.mp h
  exact Option.isSome_iff_exists.mpr ⟨v, hget⟩

theorem contains_layer (hd : d.WellFormed) (hnull : d.NullFree) :
    (layer hs f d).contains name = (d.contains name || f.contains name) := by
  have hmerged : (Dict.merged f d).contains name = (d.contains name || f.contains name) := by
    rw [Dict.contains, Dict.get?_merged hd hnull, Option.isSome_or]
    rfl
  unfold layer
  dsimp only
  split
  · next hlower hupper =>
    by_cases hname : name = Reserved.values
    · rw [hname, contains_ownValues hupper, Dict.contains, Dict.set_of_ne_null (by simp),
        Dict.get?_insert_self]
      rfl
    · rw [Dict.contains, Dict.set_of_ne_null (by simp), Dict.get?_insert, if_neg hname]
      exact hmerged
  · exact hmerged

theorem clean_layers (hd : d.WellFormed ∧ d.NullFree)
    (hfs : ∀ f ∈ fs, f.WellFormed ∧ f.NullFree) :
    (layers hs fs d).WellFormed ∧ (layers hs fs d).NullFree := by
  induction fs generalizing d with
  | nil => exact hd
  | cons f fs ih =>
    obtain ⟨hf, hfs⟩ := List.forall_mem_cons.mp hfs
    exact ih (clean_layer hf.1 hf.2) hfs

theorem contains_layers (hd : d.WellFormed ∧ d.NullFree)
    (hfs : ∀ f ∈ fs, f.WellFormed ∧ f.NullFree) :
    (layers hs fs d).contains name = (d.contains name || fs.any (·.contains name)) := by
  induction fs generalizing d with
  | nil => exact (Bool.or_false _).symm
  | cons f fs ih =>
    obtain ⟨hf, hfs⟩ := List.forall_mem_cons.mp hfs
    show (layers hs fs (layer hs f d)).contains name = _
    rw [ih (clean_layer hf.1 hf.2) hfs, contains_layer hd.1 hd.2, List.any_cons, Bool.or_assoc]

/-! ## One round -/

/-- The dictionaries of the files that a dictionary imports. -/
def importedBy (setting : Setting σ) (d : Dict Value) : List (Dict Value) :=
  (importsOf d).filterMap (imported? setting)

/-- The template of a dictionary, if it is found. -/
def templateOf (hs : Handles) (place : Place) (d : Dict Value) : Option (Dict Value) :=
  (d.get? Reserved.template).bind fun template =>
    template.asString?.bind (findTemplate hs place (d.erase Reserved.template))

/-- **What a dictionary is laid over in one round**: the files that it imports, and the template of
what it comes to over them. -/
def beneath (setting : Setting σ) (hs : Handles) (place : Place) (d : Dict Value) :
    List (Dict Value) :=
  importedBy setting d ++ (templateOf hs place (overImports setting hs d)).toList

theorem mem_beneath : g ∈ beneath setting hs place d ↔
    g ∈ importedBy setting d ∨ templateOf hs place (overImports setting hs d) = some g := by
  rw [beneath, List.mem_append, Option.mem_toList]

theorem importedBy_of_none (h : d.get? Reserved.import_ = none) : importedBy setting d = [] := by
  rw [importedBy, importsOf, h]
  rfl

theorem overImports_of_none (h : d.get? Reserved.import_ = none) :
    overImports setting hs d = d := by
  unfold overImports
  rw [h]

theorem overTemplate_of_none (h : d.get? Reserved.template = none) :
    overTemplate hs place d = d := by
  unfold overTemplate
  rw [h]

theorem overImports_eq : overImports setting hs d =
    layers hs (importedBy setting d) (d.erase Reserved.import_) := by
  cases hget : d.get? Reserved.import_ with
  | none =>
    rw [overImports_of_none hget, importedBy_of_none hget]
    exact (Dict.erase_of_notMem (Dict.lookup_eq_none_iff_names.mp hget)).symm
  | some target =>
    unfold overImports importedBy importsOf
    rw [hget]
    rfl

theorem overTemplate_eq : overTemplate hs place d =
    layers hs (templateOf hs place d).toList (d.erase Reserved.template) := by
  unfold overTemplate templateOf
  cases hget : d.get? Reserved.template with
  | none => exact (Dict.erase_of_notMem (Dict.lookup_eq_none_iff_names.mp hget)).symm
  | some template =>
    rw [Option.bind_some]
    dsimp only
    split
    · next hfound => rw [hfound]; rfl
    · next hfound => rw [hfound]; rfl

theorem wellFormed_importedBy : ∀ g ∈ importedBy setting d, (Value.dict g).WellFormed := by
  intro g hg
  obtain ⟨_, -, hg⟩ := List.mem_filterMap.mp hg
  exact wellFormed_imported? hg

theorem clean_importedBy : ∀ g ∈ importedBy setting d, g.WellFormed ∧ g.NullFree :=
  fun g hg => clean_of_wellFormed (wellFormed_importedBy g hg)

/-! ## Rounds -/

section Orderly

variable (hhs : hs.Orderly) (hplace : place.Orderly) (hd : (Value.dict d).WellFormed)

include hhs hplace hd

theorem clean_templateOf : ∀ g ∈ (templateOf hs place d).toList, g.WellFormed ∧ g.NullFree := by
  intro g hg
  obtain ⟨template, -, hg⟩ := Option.bind_eq_some_iff.mp (Option.mem_toList.mp hg)
  obtain ⟨text, -, hg⟩ := Option.bind_eq_some_iff.mp hg
  exact clean_of_wellFormed (wellFormed_findTemplate hhs hplace (wellFormed_erase hd) hg)

variable (himport : name ≠ Reserved.import_) (htemplate : name ≠ Reserved.template)

include himport htemplate

/-- **Names after one round**: those of the dictionary, and of all that it is laid over. -/
theorem contains_laidOver : (laidOver setting hs place d).contains name =
    (d.contains name || (beneath setting hs place d).any (·.contains name)) := by
  have hlower : (Value.dict (overImports setting hs d)).WellFormed := wellFormed_overImports hhs hd
  have himports : (overImports setting hs d).contains name =
      (d.contains name || (importedBy setting d).any (·.contains name)) := by
    rw [overImports_eq, contains_layers (clean_erase hd) clean_importedBy,
      contains_erase hd.root himport]
  rw [laidOver, overTemplate_eq,
    contains_layers (clean_erase hlower) (clean_templateOf hhs hplace hlower),
    contains_erase hlower.root htemplate, himports, Bool.or_assoc, beneath, List.any_append]

/-- **Names after some rounds**: those of the dictionary, and of all that it was laid over. -/
theorem contains_afterRounds (rounds : Nat) :
    (afterRounds setting hs place rounds d).contains name = true ↔ d.contains name = true ∨
      ∃ n < rounds, ∃ g ∈ beneath setting hs place (afterRounds setting hs place n d),
        g.contains name = true := by
  induction rounds with
  | zero => exact (or_iff_left fun ⟨_, hn, _⟩ => nomatch hn).symm
  | succ rounds ih =>
    have hwf : (Value.dict (afterRounds setting hs place rounds d)).WellFormed :=
      wellFormed_afterRounds hhs hplace hd rounds
    rw [afterRounds_succ, contains_laidOver hhs hplace hwf himport htemplate, Bool.or_eq_true,
      List.any_eq_true, ih, or_assoc, Nat.exists_lt_succ_right]

end Orderly

/-! ## No name is lost -/

/-- **A dictionary has all names of another one**, but perhaps for its import and its template. -/
def Covers (d e : Dict Value) : Prop := ∀ name, name ≠ Reserved.import_ →
  name ≠ Reserved.template → d.contains name = true → e.contains name = true

section Orderly

variable (hhs : hs.Orderly) (hplace : place.Orderly) (hd : (Value.dict d).WellFormed) {rounds : Nat}

include hhs hplace hd

theorem covers_afterRounds (rounds : Nat) : Covers d (afterRounds setting hs place rounds d) :=
  fun _ himport htemplate hname =>
    (contains_afterRounds hhs hplace hd himport htemplate rounds).mpr (.inl hname)

/-- What is there after some rounds is there in the end. -/
theorem covers_settled (h : hasDirective (afterRounds setting hs place rounds d) = false)
    (n : Nat) : Covers (afterRounds setting hs place n d) (afterRounds setting hs place rounds d) := by
  have hwf : (Value.dict (afterRounds setting hs place n d)).WellFormed :=
    wellFormed_afterRounds hhs hplace hd n
  have hcovers : Covers _ (afterRounds setting hs place rounds _) :=
    covers_afterRounds hhs hplace hwf rounds
  rwa [← afterRounds_add, Nat.add_comm, afterRounds_add, afterRounds_of_settled h] at hcovers

/-- What a dictionary is laid over in some round is there in the end. -/
theorem covers_beneath (h : hasDirective (afterRounds setting hs place rounds d) = false) {n : Nat}
    (hg : g ∈ beneath setting hs place (afterRounds setting hs place n d)) :
    Covers g (afterRounds setting hs place rounds d) := by
  intro name himport htemplate hname
  have hnext : (afterRounds setting hs place (n + 1) d).contains name = true :=
    (contains_afterRounds hhs hplace hd himport htemplate (n + 1)).mpr
      (.inr ⟨n, Nat.lt_succ_self n, g, hg, hname⟩)
  exact covers_settled hhs hplace hd h (n + 1) name himport htemplate hnext

end Orderly

end Compile

end ResourceTree
