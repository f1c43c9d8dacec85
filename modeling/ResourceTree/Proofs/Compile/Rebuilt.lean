import ResourceTree.Proofs.Codec.Writing
import ResourceTree.Proofs.Compile.Output
import ResourceTree.Proofs.Walk.Judgement

/-!
# Rebuilt trees — what a step may do to a tree and lose nothing

A step of a compile rebuilds a tree part by part. A list keeps its length and its order, and a
dictionary its entries, but for those that the step uses up; an entry that is rebuilt as null is one
that is not there. Whatever is put in the place of a part is made from it, rebuilt.

* `Rules`, **`Rebuilt`**: a value rebuilt as another one, by the rules of a step;
* `anchoring`, `expanding`, `instantiating`, `saving`, `stripping`: the rules of the steps;
* `Stage`, `Stage.run`, **`Stage.rules`**: the steps;
* `Survives`, **`rebuilt_of_collects`**, `rebuilt_of_lists`: dictionaries and lists of results.
-/

namespace ResourceTree

/-- A value that is no dictionary and no list. -/
def Value.IsSingle : Value → Prop
  | .dict _ | .list _ => False
  | _ => True

theorem Value.isSingle_of_ne {v : Value} (hdict : ∀ d, v ≠ .dict d)
    (hlist : ∀ items, v ≠ .list items) : v.IsSingle := by
  cases v with
  | dict d => exact hdict d rfl
  | list items => exact hlist items rfl
  | _ => trivial

namespace Compile

/-! ## Rules -/

/-- What a step may do to the parts of a tree. -/
structure Rules where
  /-- Entries under these names are used up. -/
  consumed : List String
  /-- The named values that the entries of a dictionary see beside those around it. -/
  scope : Dict Value → Option (Dict Value) → Prop
  /-- What a value becomes at once. -/
  becomes : Value → Value → Prop
  /-- Another value is rebuilt in the stead of a value, inside so many scopes. -/
  opens : List (Dict Value) → Value → Value → Prop
  /-- What is made of a value from the value rebuilt in its stead. -/
  makes : Value → Value → Value → Prop

/-- The rules of a step that leaves everything as it is. -/
def Rules.plain : Rules where
  consumed := []
  scope _ scope := scope = none
  becomes v w := v.IsSingle ∧ w = v
  opens _ _ _ := False
  makes _ _ _ := False

/-- **A value is rebuilt as another one** by the rules of a step, inside so many scopes. Items are
given in pairs, each with what it is rebuilt as. An entry is rebuilt as what is found under its
name, where no entry stands for null. -/
inductive Rebuilt (r : Rules) : List (Dict Value) → Value → Value → Prop where
  | single {scopes : List (Dict Value)} {v w : Value} (becomes : r.becomes v w) :
      Rebuilt r scopes v w
  | list {scopes : List (Dict Value)} (pairs : List (Value × Value))
      (rebuilt : ∀ pair ∈ pairs, Rebuilt r scopes pair.1 pair.2) :
      Rebuilt r scopes (.list (pairs.map Prod.fst)) (.list (pairs.map Prod.snd))
  | dict {scopes : List (Dict Value)} {d out : Dict Value} (scope : Option (Dict Value))
      (within : r.scope d scope)
      (rebuilt : ∀ name v, d.get? name = some v → name ∉ r.consumed →
        Rebuilt r (scope.toList ++ scopes) v ((out.get? name).getD .null)) :
      Rebuilt r scopes (.dict d) (.dict out)
  | made {scopes : List (Dict Value)} {v v' w' w : Value} (opened : r.opens scopes v v')
      (rebuilt : Rebuilt r scopes v' w') (made : r.makes v w' w) : Rebuilt r scopes v w

/-! ### Anchored trees -/

/-- The targets of an import are put behind a directory, and all else is kept. -/
structure Anchors (dir : Path) (d out : Dict Value) : Prop where
  kept : ∀ name, name ≠ Reserved.import_ → out.get? name = d.get? name
  targets : ∀ target, d.get? Reserved.import_ = some target →
    out.get? Reserved.import_ = some (anchorImport dir target)

/-- Texts marked as files become full paths, and imports are anchored. -/
def anchoring (files : FileView) (dir : Path) : Rules :=
  { Rules.plain with
    becomes v w := v.IsSingle ∧ match v.asString?.bind (Reserved.afterMark? Reserved.fileMark) with
      | some raw => ∃ path, files.canonicalize (dir.join raw) = .ok path ∧ w = .string path.text
      | none => w = v
    opens _ v v' := v' = v
    makes _ rebuilt w := ∃ d out, rebuilt = .dict d ∧ w = .dict out ∧ Anchors dir d out }

/-! ### Expanded trees -/

/-- A dictionary keeps its entries but for those under some names. -/
def Retains (but : List String) (d d' : Dict Value) : Prop :=
  ∀ name v, name ∉ but → d.get? name = some v → d'.get? name = some v

/-- The dictionary of an import target: its file is found and read, and anchored without loss. -/
def Imported {σ : Type} (setting : Setting σ) (target : Value) (under : Dict Value) : Prop :=
  ∃ text path source, target.asString? = some text ∧
    setting.files.canonicalize (setting.basePath.join
      ((Reserved.afterMark? Reserved.fileMark text).getD text)) = .ok path ∧
    setting.files.source path = .ok source ∧
    Rebuilt (anchoring setting.files ((path.parent?).getD ⟨"/"⟩)) [] (.dict source) (.dict under)

/-- A dictionary laid over one dictionary for each of some import targets. -/
inductive Layered {σ : Type} (setting : Setting σ) : List Value → Dict Value → Dict Value → Prop
    where
  | nil {d : Dict Value} : Layered setting [] d d
  | cons {target : Value} {targets : List Value} {d under out : Dict Value} (hs : Handles)
      (imported : Imported setting target under)
      (rest : Layered setting targets (layer hs under d) out) :
      Layered setting (target :: targets) d out

/-- A dictionary laid over all its imports. -/
inductive OverImports {σ : Type} (setting : Setting σ) (d : Dict Value) : Dict Value → Prop where
  | none (absent : d.get? Reserved.import_ = none) : OverImports setting d d
  | some {target : Value} {out : Dict Value} (present : d.get? Reserved.import_ = some target)
      (layered : Layered setting (importTargets target) (d.erase Reserved.import_) out) :
      OverImports setting d out

/-- A dictionary laid over its template, which is among its own named values or those in scope. -/
inductive OverTemplate (scopes : List (Dict Value)) (d : Dict Value) : Dict Value → Prop where
  | none (absent : d.get? Reserved.template = none) : OverTemplate scopes d d
  | some {name : String} {under : Dict Value} (hs : Handles) (place : Place)
      (present : d.get? Reserved.template = some (.string name)) (inside : place.scopes = scopes)
      (found : findTemplate hs place (d.erase Reserved.template) name = some under) :
      OverTemplate scopes d (layer hs under (d.erase Reserved.template))

/-- A dictionary that is rebuilt in the form that its imports and its template give it. -/
structure Over {σ : Type} (setting : Setting σ) (scopes : List (Dict Value))
    (d d' : Dict Value) : Prop where
  directive : hasDirective d = true
  layered : ∃ lower, OverImports setting d lower ∧ OverTemplate scopes lower d'
  kept : d.WellFormed → d.NullFree →
    Retains [Reserved.values, Reserved.import_, Reserved.template] d d'

/-- What is rebuilt in an expansion in the stead of a text or a dictionary. -/
inductive Opens {σ : Type} (setting : Setting σ) (scopes : List (Dict Value)) :
    Value → Value → Prop where
  | value {text path : String} {v : Value} (hs : Handles) (place : Place)
      (marked : Reserved.afterMark? Reserved.valueMark text = some path)
      (inside : place.scopes = scopes) (found : place.lookup hs path = some v) :
      Opens setting scopes (.string text) v
  | over {d d' : Dict Value} (h : Over setting scopes d d') :
      Opens setting scopes (.dict d) (.dict d')

/-- Named values are used up. A text marked as a value is rebuilt as the named value, one marked as
a reference becomes a handle, and a dictionary with imports or a template lies over them. -/
def expanding {σ : Type} (setting : Setting σ) : Rules where
  consumed := [Reserved.values]
  scope d scope := hasDirective d = false ∧ ∃ hs, scope = ownValues hs d
  becomes v w := v.IsSingle ∧ v.asString?.bind (Reserved.afterMark? Reserved.valueMark) = none ∧
    match v.asString?.bind (Reserved.afterMark? Reserved.refMark) with
    | some _ => ∃ h, w = .resource h
    | none => w = v
  opens scopes := Opens setting scopes
  makes _ rebuilt w := w = rebuilt

/-! ### The other steps -/

/-- A dictionary with a type is made an object, after its members. -/
def instantiating : Rules :=
  { Rules.plain with
    opens _ v v' := v' = v
    makes _ rebuilt w := ∃ members typeName ref, rebuilt = .dict members ∧
      members.get? Reserved.type = some (.string typeName) ∧ w = .object ref }

/-- The entries of the root are kept as they are. -/
def extending : Rules := { Rules.plain with becomes v w := w = v }

/-- An object is made a packed dictionary: its saved members, rebuilt, with its type name. -/
def saving {σ : Type} [ObjectClass σ] (s : Store σ) : Rules :=
  { Rules.plain with
    becomes v w := v.IsLeaf ∧ w = v
    opens _ v v' := ∃ ref object members, v = .object ref ∧ s.object? ref = some object ∧
      ObjectClass.saveToCache object = .ok members ∧ v' = .dict members
    makes v rebuilt w := ∃ ref members payload, v = .object ref ∧ rebuilt = .dict members ∧
      Packed.ofDict (members.set Reserved.type (.string ref.typeName)) = .ok payload ∧
      w = .packed payload }

/-- Flags of compression are used up. -/
def stripping : Rules := { Rules.plain with consumed := [Reserved.compress] }

/-! ## Steps -/

/-- A step of a compile that rebuilds the tree. -/
inductive Stage where
  | anchoring (dir : Path)
  | expanding
  | instantiating
  | finishing
  | extending
  | saving
  | stripping

namespace Stage

variable {σ : Type} [ObjectClass σ]

/-- What a step does with a tree. -/
def run : Stage → Dict Value → Action σ (Dict Value)
  | anchoring dir, d => (anchored dir).run 0 d
  | expanding, d => expanded.run revisitLimit d
  | instantiating, d => instantiated.run 0 d
  | finishing, d => finished.run 0 d
  | extending, d => extended d
  | saving, d => do saved.run (← Action.store).objects.size d
  | stripping, d => return (stripFlags (← Action.handles) d).1

/-- **What a step may do to the parts of a tree**, in a setting and with the objects of a store. -/
def rules (setting : Setting σ) (s : Store σ) : Stage → Rules
  | anchoring dir => Compile.anchoring setting.files dir
  | expanding => Compile.expanding setting
  | instantiating => Compile.instantiating
  | finishing => Rules.plain
  | extending => Compile.extending
  | saving => Compile.saving s
  | stripping => Compile.stripping

end Stage

/-- **A compile takes its steps one after the other**, but for the last one. -/
theorem built_eq {σ : Type} [ObjectClass σ] (dir : Path) (d : Dict Value) :
    (built dir d : Action σ _) = do
      let d ← (Stage.anchoring dir).run d
      let d ← Stage.expanding.run d
      let asked := requestsPacking (← Action.handles) d
      let d ← Stage.instantiating.run d
      let d ← Stage.finishing.run d
      let d ← Stage.extending.run d
      let d ← Stage.saving.run d
      return (d, asked) := by
  simp only [built, Stage.run, bind_assoc]

/-! ## Results -/

section Results

variable {r : Rules} {scopes : List (Dict Value)} {v : Value}

/-- The visit of a value dropped nothing, and rebuilt it. -/
def Survives (r : Rules) (scopes : List (Dict Value)) (v : Value) (result : Option Value) : Prop :=
  ∃ w, result = some w ∧ Rebuilt r scopes v w

theorem survives_some {w : Value} (h : Rebuilt r scopes v w) : Survives r scopes v (some w) :=
  ⟨w, rfl, h⟩

/-- **Entries that survived make up the dictionary, rebuilt.** -/
theorem rebuilt_of_collects {d out : Dict Value} {scope : Option (Dict Value)}
    (hscope : r.scope d scope)
    (h : Place.Collects (fun entry => Survives r (scope.toList ++ scopes) entry.2) ∅
      (Dict.inKeyOrder (d.entries.filter fun entry => !r.consumed.contains entry.1)) out) :
    Rebuilt r scopes (.dict d) (.dict out) := by
  obtain ⟨visited, hnames, hresults, rfl⟩ := h
  refine .dict scope hscope fun name v hv hname => ?_
  have hopen : (d.entries.filter fun entry => !r.consumed.contains entry.1).lookup name = some v :=
    (Dict.lookup_filter_names (f := fun name => !r.consumed.contains name)
      (by simpa using hname)).trans hv
  rw [← Dict.lookup_inKeyOrder, ← hnames] at hopen
  have hsorted : (Dict.names (visited.map Prod.fst)).Pairwise (· < ·) := by
    rw [hnames]
    exact Dict.pairwise_inKeyOrder
  have hentry := (Dict.lookup_eq_some_iff_mem (hsorted.imp fun hlt => ne_of_lt hlt)).mp hopen
  obtain ⟨member, hmember, heq⟩ := List.mem_map.mp hentry
  obtain ⟨w, hw, hrebuilt⟩ := hresults member hmember
  have hfound := Place.get?_collect hsorted hmember
  rw [heq] at hrebuilt
  rw [heq, hw] at hfound
  -- a result that is null is not set, and reads as null again
  have hresult : ((Place.collect ∅ visited).get? name).getD .null = w := by
    rw [hfound, Option.filter_some]
    cases w <;> rfl
  rw [hresult]
  exact hrebuilt

theorem rebuilt_of_all {d out : Dict Value} (hr : r.consumed = []) (hscope : r.scope d none)
    (h : Place.Collects (fun entry => Survives r scopes entry.2) ∅ (Dict.inKeyOrder d.entries)
      out) : Rebuilt r scopes (.dict d) (.dict out) := by
  have hall : d.entries.filter (fun entry => !r.consumed.contains entry.1) = d.entries := by
    rw [hr]
    exact List.filter_eq_self.mpr fun _ _ => rfl
  refine rebuilt_of_collects hscope ?_
  rw [hall]
  exact h

theorem rebuilt_of_lists {items out : List Value} {index : Nat}
    (h : Place.Lists (fun element => Survives r scopes element.1) (items.zipIdx index) out) :
    Rebuilt r scopes (.list items) (.list out) := by
  obtain ⟨visited, helements, hresults, rfl⟩ := h
  obtain rfl : visited.map (fun element => element.1.1) = items := by
    rw [← List.zipIdx_map_fst index items, ← helements, List.map_map]
    rfl
  let pairs := visited.map fun element => (element.1.1, element.2.getD .null)
  have hfst : visited.map (fun element => element.1.1) = pairs.map Prod.fst := by
    rw [List.map_map]
    rfl
  have hsnd : visited.filterMap Prod.snd = pairs.map Prod.snd := by
    rw [List.map_map, ← List.filterMap_eq_map]
    refine List.filterMap_congr fun element helement => ?_
    obtain ⟨w, hw, -⟩ := hresults element helement
    rw [hw]
    exact congrArg some (by rw [Function.comp_apply, hw]; rfl)
  rw [hfst, hsnd]
  refine .list pairs fun pair hpair => ?_
  obtain ⟨element, helement, rfl⟩ := List.mem_map.mp hpair
  obtain ⟨w, hw, hrebuilt⟩ := hresults element helement
  rw [hw]
  exact hrebuilt

end Results

end Compile

end ResourceTree
