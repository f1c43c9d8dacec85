import ResourceTree.Proofs.Compile.Pointed
import ResourceTree.Proofs.Expand.Layering
import ResourceTree.Proofs.Files.Memory
import ResourceTree.Proofs.Files.Path
import ResourceTree.Proofs.Json.Shape

/-!
# Resolution — which file an import loads

An import is put behind the directory of its source before it is expanded, and is looked for below
the base path when it is. Both together find the file next to the source as long as directories are
absolute: then what stands behind a directory is absolute, and so is the directory of every file
that is found. Behind a relative directory the base path is gone through twice.

* `Path.isAbsolute_join`, `isAbsolute_parent?`; `MemoryFiles.isAbsolute_of_canonicalize`;
* `importsOf`, `anchoredTarget`, **`importsOf_anchoredSource`**: targets in an anchored source;
* `besides?`, **`imported?_anchoredTarget`**, `overImports_anchoredSource`: what they bring;
* `within_anchoredSource`: dictionaries inside an anchored source;
* `Source`: the sources that are read in a compile; **`resolution_besides`**;
* `not_besides_relative`: a relative base path.
-/

namespace ResourceTree

namespace Reserved

theorem afterMark?_append (mark text : String) : afterMark? mark (mark ++ text) = some text := by
  have hprefix : mark.toList <+: (mark ++ text).toList := by
    rw [String.toList_append]
    exact List.prefix_append _ _
  unfold afterMark?
  rw [if_pos (List.isPrefixOf_iff_prefix.mpr hprefix), String.toList_append,
    ← String.length_toList, List.drop_left, String.ofList_toList]

end Reserved

/-! ## Absolute paths -/

namespace Path

variable {dir p : Path} {text : String}

theorem join_of_isAbsolute (h : (Path.mk text).isAbsolute = true) : dir.join text = ⟨text⟩ :=
  if_pos h

theorem isAbsolute_join (h : dir.isAbsolute = true) (text : String) :
    (dir.join text).isAbsolute = true := by
  have hhead : dir.text.toList.head? = some '/' := by simpa [isAbsolute] using h
  have happend : ∀ more : String, (Path.mk (dir.text ++ more)).isAbsolute = true := by
    intro more
    simp [isAbsolute, String.toList_append, List.head?_append, hhead]
  unfold join
  split_ifs with habs hend
  · exact habs
  · exact happend text
  · rw [String.append_assoc]
    exact happend _

theorem isAbsolute_parent? (h : p.isAbsolute = true) :
    ((p.parent?).getD ⟨"/"⟩).isAbsolute = true := by
  obtain ⟨cs, hcs⟩ : ∃ cs, p.text.toList = '/' :: cs := by
    have hhead : p.text.toList.head? = some '/' := by simpa [isAbsolute] using h
    exact List.head?_eq_some_iff.mp hhead
  unfold parent?
  rw [hcs, h]
  simp only [Bool.true_or, if_true]
  split_ifs with hblank hleads
  · cases hleads
  · decide
  · simp [isAbsolute]

theorem afterMark?_of_isAbsolute (h : (Path.mk text).isAbsolute = true) :
    Reserved.afterMark? Reserved.fileMark text = none := by
  have hhead : text.toList.head? = some '/' := by simpa [isAbsolute] using h
  refine Reserved.afterMark?_eq_none_iff.mpr fun ⟨rest, hrest⟩ => ?_
  have hmark : Reserved.fileMark.toList = 'f' :: "ile:".toList := by decide
  rw [← hrest, hmark] at hhead
  cases hhead

theorem namedFile_of_isAbsolute (h : (Path.mk text).isAbsolute = true) : namedFile text = text := by
  unfold namedFile
  rw [afterMark?_of_isAbsolute h]
  rfl

end Path

namespace MemoryFiles

variable {fs : MemoryFiles} {p file : Path}

theorem isAbsolute_of_canonicalize (h : FileSystem.canonicalize fs p = .ok file)
    (hp : p.isAbsolute = true) : file.isAbsolute = true := by
  obtain ⟨rfl, -⟩ := canonicalize_eq_ok_iff.mp h
  rw [Path.isAbsolute_normalize, hp]

end MemoryFiles

namespace Compile

open ResourceTree.Action

variable {σ : Type} {setting : Setting σ} {hs : Handles} {place : Place} {files : FileView}
  {dir file : Path} {d x m : Dict Value} {v w target : Value} {name text : String}

/-! ## Members of an anchored source -/

theorem anchorImport_string : anchorImport dir (.string text) = .string (dir.join text).text := by
  unfold anchorImport
  split_ifs with h
  · rw [Path.join_of_isAbsolute h]
  · rfl

theorem anchorImport_ne_null (h : v ≠ .null) : anchorImport dir v ≠ .null := by
  cases v with
  | string text => rw [anchorImport_string]; exact nofun
  | list items => exact nofun
  | _ => exact h

theorem anchoredForm_ne_null (hv : v ≠ .null) (h : anchoredForm files dir v = some w) :
    w ≠ .null := by
  cases v with
  | dict d =>
    rw [anchoredForm_dict] at h
    obtain rfl := Option.some.inj h
    exact nofun
  | list items =>
    rw [anchoredForm_list] at h
    obtain rfl := Option.some.inj h
    exact nofun
  | _ =>
    rw [anchoredForm_other (by simp) (by simp)] at h
    split at h
    · obtain ⟨path, -, rfl⟩ := Option.map_eq_some_iff.mp h
      exact nofun
    · obtain rfl := Option.some.inj h
      exact hv

theorem fst_anchoredMembers (files : FileView) (dir : Path) (d : Dict Value) :
    ((Dict.inKeyOrder d.entries).map fun entry =>
      (entry, anchoredForm files dir entry.2)).map Prod.fst = Dict.inKeyOrder d.entries := by
  rw [List.map_map]
  exact List.map_id _

theorem pairwise_anchoredMembers (files : FileView) (dir : Path) (d : Dict Value) :
    (Dict.names (((Dict.inKeyOrder d.entries).map fun entry =>
      (entry, anchoredForm files dir entry.2)).map Prod.fst)).Pairwise (· < ·) := by
  rw [fst_anchoredMembers]
  exact Dict.pairwise_inKeyOrder

theorem get?_anchoredMembers (hd : d.WellFormed) (hnull : d.NullFree) (name : String) :
    (anchoredMembers files dir d).get? name = (d.get? name).bind (anchoredForm files dir) := by
  have hlookup : (Dict.inKeyOrder d.entries).lookup name = d.get? name := Dict.lookup_inKeyOrder
  cases hget : d.get? name with
  | none =>
    rw [hget, Dict.lookup_eq_none_iff_names, ← fst_anchoredMembers files dir d] at hlookup
    have hnone := contains_collect hlookup
    rw [Dict.contains, Option.isSome_eq_false_iff, Option.isNone_iff_eq_none] at hnone
    exact hnone
  | some v =>
    have hmember : (name, v) ∈ Dict.inKeyOrder d.entries := (Dict.mem_inKeyOrder_iff hd).mpr hget
    refine (Place.get?_collect (pairwise_anchoredMembers files dir d)
      (List.mem_map_of_mem hmember)).trans ?_
    show (anchoredForm files dir v).filter _ = anchoredForm files dir v
    cases hform : anchoredForm files dir v with
    | none => rfl
    | some w =>
      have hv : v ≠ .null := hnull _ (Dict.mem_of_get? hget)
      have hw := Dict.isNull_eq_false_iff.mpr (anchoredForm_ne_null hv hform)
      rw [Option.filter_some, hw]
      rfl

/-- **A member of an anchored source** is the member, anchored, and behind the directory if it is
the import. -/
theorem get?_anchoredSource (files : FileView) (dir : Path) (h : (Value.dict d).WellFormed)
    (name : String) :
    (anchoredSource files dir d).get? name = ((d.get? name).bind (anchoredForm files dir)).map
      (if name = Reserved.import_ then anchorImport dir else id) := by
  have hmembers : ∀ name, (anchoredMembers files dir d).get? name =
      (d.get? name).bind (anchoredForm files dir) := get?_anchoredMembers h.root h.nullFree
  have hwf : (anchoredMembers files dir d).WellFormed := Place.wellFormed_collect
  have hnull : (anchoredMembers files dir d).NullFree := Place.nullFree_collect
  unfold anchoredSource anchorMember
  rw [← hmembers]
  cases himport : (anchoredMembers files dir d).get? Reserved.import_ with
  | none =>
    split_ifs with hname
    · rw [hname, himport]
      rfl
    · exact Option.map_id.symm ▸ rfl
  | some target =>
    dsimp only
    split_ifs with hname
    · rw [hname, himport, Dict.set_of_ne_null (anchorImport_ne_null
        (hnull _ (Dict.mem_of_get? himport))), Dict.get?_insert_self]
      rfl
    · rw [Dict.get?_set_of_ne hwf hname, Option.map_id]
      rfl

/-! ## Import targets -/

/-- The import targets of a dictionary. -/
def importsOf (d : Dict Value) : List Value :=
  ((d.get? Reserved.import_).map importTargets).getD []

/-- What an import target becomes in a source in a directory. -/
def anchoredTarget (files : FileView) (dir : Path) (target : Value) : Option Value :=
  (anchoredForm files dir target).map (anchorImport dir)

theorem importTargets_of_not_list (h : ∀ items, v ≠ .list items) : importTargets v = [v] := by
  cases v with
  | list items => exact absurd rfl (h items)
  | _ => rfl

theorem anchoredTarget_list (items : List Value) : anchoredTarget files dir (.list items) =
    some (.list (items.filterMap (anchoredTarget files dir))) := by
  rw [anchoredTarget, anchoredForm_list, Option.map_some, anchorImport, anchorImports_eq,
    List.map_filterMap]
  rfl

theorem anchoredTarget_ne_list (hlist : ∀ items, v ≠ .list items)
    (h : anchoredTarget files dir v = some w) (items : List Value) : w ≠ .list items := by
  obtain ⟨u, hu, rfl⟩ := Option.map_eq_some_iff.mp h
  cases v with
  | list items => exact absurd rfl (hlist items)
  | dict d =>
    rw [anchoredForm_dict] at hu
    obtain rfl := Option.some.inj hu
    rintro ⟨⟩
  | string text =>
    obtain ⟨found, rfl⟩ : ∃ found, u = .string found := by
      rw [anchoredForm] at hu
      split at hu
      · obtain ⟨path, -, rfl⟩ := Option.map_eq_some_iff.mp hu
        exact ⟨_, rfl⟩
      · exact ⟨text, (Option.some.inj hu).symm⟩
    rw [anchorImport_string]
    rintro ⟨⟩
  | _ =>
    rw [anchoredForm_other (by simp) (by simp)] at hu
    obtain rfl := Option.some.inj hu
    rintro ⟨⟩

theorem importTargets_anchoredTarget (target : Value) :
    ((anchoredTarget files dir target).map importTargets).getD [] =
      (importTargets target).filterMap (anchoredTarget files dir) := by
  by_cases hlist : ∃ items, target = .list items
  · obtain ⟨items, rfl⟩ := hlist
    rw [anchoredTarget_list]
    rfl
  · rw [not_exists] at hlist
    rw [importTargets_of_not_list hlist]
    cases htarget : anchoredTarget files dir target with
    | none => rw [List.filterMap_cons_none htarget]; rfl
    | some w =>
      rw [List.filterMap_cons_some htarget]
      exact importTargets_of_not_list (anchoredTarget_ne_list hlist htarget)

/-- **The import targets in an anchored source** are the targets that are left, each anchored. -/
theorem importsOf_anchoredSource (h : (Value.dict d).WellFormed) :
    importsOf (anchoredSource files dir d) =
      (importsOf d).filterMap (anchoredTarget files dir) := by
  unfold importsOf
  rw [get?_anchoredSource files dir h, if_pos rfl]
  cases d.get? Reserved.import_ with
  | none => rfl
  | some target => exact importTargets_anchoredTarget target

/-! ## What targets bring -/

/-- **The source that a target names next to its own source**, anchored where it lies. -/
def besides? (files : FileView) (dir : Path) (target : Value) : Option (Dict Value) := do
  let text ← target.asString?
  let file ← (files.canonicalize (dir.join (namedFile text))).toOption
  sourceAt files file

theorem besides?_string (text : String) : besides? files dir (.string text) =
    (files.canonicalize (dir.join (namedFile text))).toOption.bind (sourceAt files) := rfl

theorem imported?_of_isAbsolute (h : file.isAbsolute = true) :
    imported? setting (.string file.text) =
      (setting.files.canonicalize file).toOption.bind (sourceAt setting.files) := by
  rw [imported?_of_text rfl, Path.namedFile_of_isAbsolute h, Path.join_of_isAbsolute h]

theorem imported?_of_asString? (h : v.asString? = none) : imported? setting v = none := by
  unfold imported?
  rw [h]
  rfl

section InMemory

variable {fs : MemoryFiles} (hfiles : setting.files = FileView.of fs)
  (hdir : dir.isAbsolute = true)

include hfiles hdir

theorem imported?_anchoredTarget_string (text : String) :
    (anchoredTarget setting.files dir (.string text)).bind (imported? setting) =
      besides? setting.files dir (.string text) := by
  rw [besides?_string]
  unfold anchoredTarget namedFile
  rw [anchoredForm]
  cases Reserved.afterMark? Reserved.fileMark text with
  | none =>
    have habs := Path.isAbsolute_join hdir text
    show imported? setting (anchorImport dir (.string text)) = _
    rw [anchorImport_string, imported?_of_isAbsolute habs]
    rfl
  | some raw =>
    dsimp only [Option.getD_some]
    cases hfile : setting.files.canonicalize (dir.join raw) with
    | error e => rfl
    | ok file =>
      have hfound : FileSystem.canonicalize fs (dir.join raw) = .ok file := by
        rw [hfiles] at hfile
        exact hfile
      have habs := MemoryFiles.isAbsolute_of_canonicalize hfound (Path.isAbsolute_join hdir raw)
      have hagain : setting.files.canonicalize file = .ok file := by
        rw [hfiles]
        exact MemoryFiles.canonicalize_again hfound
      show imported? setting (anchorImport dir (.string file.text)) = sourceAt setting.files file
      rw [anchorImport_string, Path.join_of_isAbsolute habs, imported?_of_isAbsolute habs, hagain]
      rfl

/-- **An anchored target brings the source next to its own source**, as often as the directory is
gone through. -/
theorem imported?_anchoredTarget (target : Value) :
    (anchoredTarget setting.files dir target).bind (imported? setting) =
      besides? setting.files dir target := by
  cases target with
  | string text => exact imported?_anchoredTarget_string hfiles hdir text
  | list items =>
    rw [anchoredTarget_list]
    exact imported?_of_asString? rfl
  | dict d =>
    rw [anchoredTarget, anchoredForm_dict]
    exact imported?_of_asString? rfl
  | _ =>
    rw [anchoredTarget, anchoredForm_other (by simp) (by simp)]
    exact imported?_of_asString? rfl

/-- **What a dictionary of an anchored source comes to over its imports.** -/
theorem overImports_anchoredSource (h : (Value.dict d).WellFormed) :
    overImports setting hs (anchoredSource setting.files dir d) =
      layers hs ((importsOf d).filterMap (besides? setting.files dir))
        ((anchoredSource setting.files dir d).erase Reserved.import_) := by
  have htargets : importsOf (anchoredSource setting.files dir d) =
      (importsOf d).filterMap (anchoredTarget setting.files dir) := importsOf_anchoredSource h
  have hbring : (importsOf d).filterMap (besides? setting.files dir) =
      (importsOf (anchoredSource setting.files dir d)).filterMap (imported? setting) := by
    rw [htargets, List.filterMap_filterMap]
    exact List.filterMap_congr fun target _ => (imported?_anchoredTarget hfiles hdir target).symm
  rw [hbring]
  unfold overImports importsOf
  cases himport : (anchoredSource setting.files dir d).get? Reserved.import_ with
  | none =>
    have hnotMem : Reserved.import_ ∉ Dict.names (anchoredSource setting.files dir d).entries :=
      Dict.lookup_eq_none_iff_names.mp himport
    exact (Dict.erase_of_notMem hnotMem).symm
  | some target => rfl

end InMemory

/-! ## Inside a source -/

theorem within_anchorImport (h : (Value.dict x).Within v) :
    (Value.dict x).Within (anchorImport dir v) := by
  induction v using Value.induct with
  | string text =>
    cases h
  | list items ih =>
    rw [anchorImport, anchorImports_eq]
    cases h with
    | item hitem hx => exact .item (List.mem_map_of_mem hitem) (ih _ hitem hx)
  | _ => exact h

/-- What a dictionary lies in is not dropped, and it lies there as it is anchored. -/
theorem within_anchoredForm (files : FileView) (dir : Path) (hv : v.WellFormed)
    (h : (Value.dict x).Within v) :
    ∃ w, anchoredForm files dir v = some w ∧
      (Value.dict (anchoredSource files dir x)).Within w := by
  induction v using Value.induct with
  | dict d ih =>
    refine ⟨_, anchoredForm_dict files dir d, ?_⟩
    cases h with
    | self => exact .self
    | member hentry hx =>
      rename_i entry
      obtain ⟨w, hw, hin⟩ := ih entry hentry (hv.member hentry) hx
      have hget : d.get? entry.1 = some entry.2 := (Dict.get?_eq_some_iff hv.root).mpr hentry
      have hmember := get?_anchoredSource files dir hv entry.1
      rw [hget, Option.bind_some, hw, Option.map_some] at hmember
      refine .member (Dict.mem_of_get? hmember) ?_
      split_ifs
      · exact within_anchorImport hin
      · exact hin
  | list items ih =>
    refine ⟨_, anchoredForm_list files dir items, ?_⟩
    cases h with
    | item hitem hx =>
      obtain ⟨w, hw, hin⟩ := ih _ hitem (hv.item hitem) hx
      exact .item (List.mem_filterMap.mpr ⟨_, hitem, hw⟩) hin
  | _ => cases h

theorem within_anchoredSource (hm : (Value.dict m).WellFormed)
    (h : (Value.dict x).Within (.dict m)) : (Value.dict (anchoredSource files dir x)).Within
      (.dict (anchoredSource files dir m)) := by
  obtain ⟨w, hw, hin⟩ := within_anchoredForm files dir hm h
  rw [anchoredForm_dict] at hw
  obtain rfl := Option.some.inj hw
  exact hin

/-! ## The sources of a compile -/

/-- **A source that is read in a compile, and its directory**: the root source, or one that such a
source names in an import next to it. -/
inductive Source (setting : Setting σ) (root : Dict Value) : Path → Dict Value → Prop where
  | root : Source setting root setting.basePath root
  | imported {dir file : Path} {m x next : Dict Value} {text : String}
      (here : Source setting root dir m) (within : (Value.dict x).Within (.dict m))
      (named : .string text ∈ importsOf x)
      (found : setting.files.canonicalize (dir.join (namedFile text)) = .ok file)
      (read : setting.files.source file = .ok next) :
      Source setting root ((file.parent?).getD ⟨"/"⟩) next

theorem wellFormed_of_source (h : files.source file = .ok d) : (Value.dict d).WellFormed := by
  unfold FileView.source at h
  cases htext : files.readText file with
  | error e =>
    rw [htext] at h
    cases h
  | ok text =>
    rw [htext] at h
    exact Json.wellFormed_parseSource h

namespace Source

variable {root : Dict Value}

theorem wellFormed (h : Source setting root dir m) (hroot : (Value.dict root).WellFormed) :
    (Value.dict m).WellFormed := by
  cases h with
  | root => exact hroot
  | imported _ _ _ _ hread => exact wellFormed_of_source hread

/-- **All sources lie in absolute directories**, if the base path is absolute. -/
theorem isAbsolute {fs : MemoryFiles} (h : Source setting root dir m)
    (hfiles : setting.files = FileView.of fs) (hbase : setting.basePath.isAbsolute = true) :
    dir.isAbsolute = true := by
  induction h with
  | root => exact hbase
  | @imported dir file _ _ _ text _ _ _ found _ ih =>
    have hfound : FileSystem.canonicalize fs (dir.join (namedFile text)) = .ok file := by
      rw [hfiles] at found
      exact found
    exact Path.isAbsolute_parent? (MemoryFiles.isAbsolute_of_canonicalize hfound
      (Path.isAbsolute_join ih _))

end Source

theorem yields_fileMark (setting : Setting σ) (hs : Handles) (dir : Path) (place : Place)
    (raw : String) :
    Yields setting hs
      ((setting.files.canonicalize (dir.join raw)).toOption.map fun path => .string path.text)
      ((anchored dir).visitWithin 0 (.string (Reserved.fileMark ++ raw)) place) := by
  have hyields : Yields setting hs
      (anchoredForm setting.files dir (.string (Reserved.fileMark ++ raw))) _ :=
    yields_anchored dir (.string (Reserved.fileMark ++ raw)) place
  rw [anchoredForm, Reserved.afterMark?_append] at hyields
  exact hyields

theorem exists_anchoredTarget
    (hfile : files.canonicalize (dir.join (namedFile text)) = .ok file) :
    ∃ target, anchoredTarget files dir (.string text) = some target := by
  unfold anchoredTarget
  rw [anchoredForm]
  unfold namedFile at hfile
  cases hmark : Reserved.afterMark? Reserved.fileMark text with
  | none => exact ⟨_, rfl⟩
  | some raw =>
    rw [hmark, Option.getD_some] at hfile
    dsimp only
    rw [hfile]
    exact ⟨_, rfl⟩

/-- **An import loads the file next to the source that it is written in.** Take a compile over files
in memory with an absolute base path, any source that is read in it, and any dictionary inside:

* anchoring comes to the anchored source, where the dictionary lies in its anchored form, and over
  its imports that comes to the sources in the files that they name next to the source;
* where a marked string beside it comes to the path of a file, an import of the same text, marked or
  not, leaves a target that brings the source in that file wherever it is loaded;
* where a marked string is dropped, so is the import, or it brings nothing. -/
theorem resolution_besides [ObjectClass σ] (c : Compiler MemoryFiles σ) {base dir : Path}
    {root m : Dict Value} (hbase : base.isAbsolute = true) (hroot : (Value.dict root).WellFormed)
    (hsource : Source (c.settingIn base) root dir m) (hs : Handles) :
    let setting := c.settingIn base
    let anchor := anchoredSource setting.files dir
    Yields setting hs (anchor m) ((anchored dir).run 0 m) ∧
    ∀ x, (Value.dict x).Within (.dict m) → (Value.dict (anchor x)).Within (.dict (anchor m)) ∧
      (∀ place, Yields setting hs
        (layers hs ((importsOf x).filterMap (besides? setting.files dir))
          ((anchor x).erase Reserved.import_)) (applyImports place (anchor x))) ∧
      ∀ text, .string text ∈ importsOf x →
        let marked := (anchored dir).visitWithin 0 (.string (Reserved.fileMark ++ namedFile text))
        (∃ file target, (∀ place, Yields setting hs (some (.string file.text)) (marked place)) ∧
          target ∈ importsOf (anchor x) ∧
          ∀ place, Yields setting hs (sourceAt setting.files file) (loadImport place target)) ∨
        ((∀ place, Yields setting hs none (marked place)) ∧
          ∀ target, anchoredTarget setting.files dir (.string text) = some target →
            ∀ place, Yields setting hs none (loadImport place target)) := by
  intro setting anchor
  have hfiles : setting.files = FileView.of c.files := rfl
  have hdir : dir.isAbsolute = true := hsource.isAbsolute hfiles hbase
  have hm : (Value.dict m).WellFormed := hsource.wellFormed hroot
  refine ⟨yields_run_anchored dir m, fun x hx => ?_⟩
  have hwf : (Value.dict x).WellFormed := fun d hd => hm d (hd.trans hx)
  refine ⟨within_anchoredSource hm hx, fun place => ?_, ?_⟩
  · rw [← overImports_anchoredSource hfiles hdir hwf]
    exact yields_applyImports place _
  · intro text htext marked
    have hmarked := fun place => yields_fileMark setting hs dir place
      (namedFile text)
    have hbrings := imported?_anchoredTarget hfiles hdir (.string text)
    rw [besides?_string] at hbrings
    cases hfile : setting.files.canonicalize (dir.join (namedFile text)) with
    | ok file =>
      rw [hfile] at hmarked hbrings
      obtain ⟨target, htarget⟩ := exists_anchoredTarget hfile
      rw [htarget] at hbrings
      refine .inl ⟨file, target, hmarked, ?_, fun place => ?_⟩
      · rw [importsOf_anchoredSource hwf]
        exact List.mem_filterMap.mpr ⟨_, htext, htarget⟩
      · rw [← show imported? setting target = sourceAt setting.files file from hbrings]
        exact yields_loadImport place target
    | error e =>
      rw [hfile] at hmarked hbrings
      refine .inr ⟨hmarked, fun target htarget place => ?_⟩
      rw [htarget] at hbrings
      rw [← show imported? setting target = none from hbrings]
      exact yields_loadImport place target

/-- A part in a directory of its own, which imports what lies beside it. -/
def workshop : Compiler MemoryFiles Item :=
  let lathe := "\x7b\"tool\":\x7b\"import\":\"file:tools/saw.json\"\x7d\x7d"
  let saw := "\x7b\"teeth\":24\x7d"
  { Compiler.alone with
    files := (MemoryFiles.empty.insert ⟨"/shop/parts/lathe.json"⟩ (Bytes.ofString lathe)).insert
      ⟨"/shop/parts/tools/saw.json"⟩ (Bytes.ofString saw) }

/-- A source that imports the part from the directory above. -/
def order : Dict Value := Dict.ofValues [("import", .string "parts/lathe.json")]

theorem wellFormed_order : (Value.dict order).WellFormed :=
  Value.wellFormed_ofValues (List.forall_mem_singleton.mpr (Value.wellFormed_leaf nofun nofun))

/-- The texts that a tool of a part imports. -/
def toolTexts (x : Dict Value) : List (Option String) := (importsOf x).map Value.asString?

theorem mem_importsOf_of_toolTexts (h : some text ∈ toolTexts x) : .string text ∈ importsOf x := by
  obtain ⟨v, hv, htext⟩ := List.mem_map.mp h
  cases v with
  | string s =>
    obtain rfl := Option.some.inj htext
    exact hv
  | _ => cases htext

/-- The part is a source of the compile, in its own directory. -/
theorem source_lathe {lathe : Dict Value}
    (h : (workshop.settingIn ⟨"/shop"⟩).files.source ⟨"/shop/parts/lathe.json"⟩ = .ok lathe) :
    Source (workshop.settingIn ⟨"/shop"⟩) order ⟨"/shop/parts"⟩ lathe := by
  have hfound : FileSystem.canonicalize workshop.files
      (Path.join ⟨"/shop"⟩ (namedFile "parts/lathe.json")) = .ok ⟨"/shop/parts/lathe.json"⟩ :=
    MemoryFiles.canonicalize_eq_ok_iff.mpr ⟨by decide +kernel, by decide +kernel⟩
  have hdir : ((Path.mk "/shop/parts/lathe.json").parent?).getD ⟨"/"⟩ = ⟨"/shop/parts"⟩ := by
    decide +kernel
  rw [← hdir]
  exact .imported .root .self (mem_importsOf_of_toolTexts (by decide +kernel)) hfound h

/-- The tool that the part imports is found beside the part. -/
theorem resolution_besides_workshop : ∃ lathe x target saw,
    (workshop.settingIn ⟨"/shop"⟩).files.source ⟨"/shop/parts/lathe.json"⟩ = .ok lathe ∧
    (Value.dict x).Within (.dict lathe) ∧ .string "file:tools/saw.json" ∈ importsOf x ∧
    target ∈ importsOf (anchoredSource (workshop.settingIn ⟨"/shop"⟩).files ⟨"/shop/parts"⟩ x) ∧
    Yields (workshop.settingIn ⟨"/shop"⟩) .empty (some saw) (loadImport (Place.root 0) target) ∧
    (saw.get? "teeth").isSome = true := by
  have hparts : ((workshop.settingIn ⟨"/shop"⟩).files.source
      ⟨"/shop/parts/lathe.json"⟩).toOption.bind (fun lathe =>
        ((lathe.get? "tool").bind Value.asDict?).map toolTexts) =
      some [some "file:tools/saw.json"] := by decide +kernel
  have htools : ((sourceAt (workshop.settingIn ⟨"/shop"⟩).files
      ⟨"/shop/parts/tools/saw.json"⟩).bind (·.get? "teeth")).isSome = true := by decide +kernel
  cases hlathe : (workshop.settingIn ⟨"/shop"⟩).files.source ⟨"/shop/parts/lathe.json"⟩ with
  | error e =>
    rw [hlathe] at hparts
    cases hparts
  | ok lathe =>
    rw [hlathe] at hparts
    obtain ⟨x, hx, htexts⟩ := Option.map_eq_some_iff.mp
      (show ((lathe.get? "tool").bind Value.asDict?).map toolTexts = _ from hparts)
    obtain ⟨v, hget, hv⟩ := Option.bind_eq_some_iff.mp hx
    obtain rfl : v = .dict x := by
      cases v with
      | dict d => exact congrArg Value.dict (Option.some.inj hv)
      | _ => cases hv
    have hnamed : .string "file:tools/saw.json" ∈ importsOf x :=
      mem_importsOf_of_toolTexts (htexts ▸ List.mem_singleton_self _)
    obtain ⟨-, hinside⟩ := resolution_besides workshop (by decide +kernel) wellFormed_order
      (source_lathe hlathe) .empty
    have hwithin : (Value.dict x).Within (.dict lathe) := .member (Dict.mem_of_get? hget) .self
    obtain ⟨-, -, htarget⟩ := hinside x hwithin
    have hmarked := yields_fileMark (workshop.settingIn ⟨"/shop"⟩) .empty
      ⟨"/shop/parts"⟩ (Place.root 0) (namedFile "file:tools/saw.json")
    have hfile : (workshop.settingIn ⟨"/shop"⟩).files.canonicalize
        (Path.join ⟨"/shop/parts"⟩ (namedFile "file:tools/saw.json")) =
        .ok ⟨"/shop/parts/tools/saw.json"⟩ :=
      MemoryFiles.canonicalize_eq_ok_iff.mpr ⟨by decide +kernel, by decide +kernel⟩
    rw [hfile] at hmarked
    rcases htarget _ hnamed with ⟨file, target, hsame, hmem, hload⟩ | ⟨hnone, -⟩
    · have htext := (hsame (Place.root 0)).unique hmarked
      obtain rfl : file = ⟨"/shop/parts/tools/saw.json"⟩ :=
        congrArg Path.mk (Value.string.inj (Option.some.inj htext))
      obtain ⟨teeth, hteeth⟩ := Option.isSome_iff_exists.mp htools
      obtain ⟨saw, hsaw, hget⟩ := Option.bind_eq_some_iff.mp hteeth
      exact ⟨lathe, x, target, saw, rfl, hwithin, hnamed, hmem,
        hsaw ▸ hload (Place.root 0), Option.isSome_iff_exists.mpr ⟨teeth, hget⟩⟩
    · cases (hnone (Place.root 0)).unique hmarked

end Compile

namespace Compiler

open Compile

/-! ## A relative base path -/

/-- A file in a directory that is named from elsewhere. -/
def shelf : Compiler MemoryFiles Item :=
  { alone with files := MemoryFiles.empty.insert ⟨"res/b.json"⟩ (Bytes.ofString "\x7b\"x\":1\x7d") }

/-- A source that imports the file, and names it in a marked string. -/
def borrowing : Dict Value := Dict.ofValues
  [("k", .dict (Dict.ofValues [("import", .string "b.json")])), ("p", .string "file:b.json")]

/-- The output of a compile, if it gave one. -/
def output? {φ σ : Type} (compiled : Compiled φ σ) : Option Output :=
  compiled.outcome.toOption.map Prod.fst

/-- **Behind a relative base path an import may fail where a marked string is resolved**: it is
looked for in `res/res`. -/
theorem not_besides_relative :
    errors? (shelf.compileDict .empty borrowing ⟨"res"⟩) =
      some [⟨.resolution, "/k", "cannot import 'res/b.json': Not found: res/res/b.json"⟩] ∧
    (output? (shelf.compileDict .empty borrowing ⟨"res"⟩)).map (fun o =>
      ((o.dict.get? "p").bind Value.asString?, (o.dict.get? "k").map fun k =>
        (k.asDict?).map Dict.size)) = some (some "res/b.json", some (some 0)) := by
  refine ⟨?_, ?_⟩ <;> decide +kernel

end Compiler

end ResourceTree
