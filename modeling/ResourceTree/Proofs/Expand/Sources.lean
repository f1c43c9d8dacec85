import ResourceTree.Proofs.Compile.Lossless
import ResourceTree.Proofs.Walk.Reports
import ResourceTree.Proofs.Walk.Takes

/-!
# Sources — what an import brings, and what a dictionary comes to over it

To anchor a source, to load an import and to lay a dictionary over others only takes notes. What
comes of it depends on files, on what handles show, and on the scopes of a place, so it can be
written down without a run.

* **`Action.Yields`**: an action with a known outcome, which only takes notes;
* `yields_pure`, `Yields.bind`, `yields_resolveFile`, `yields_foldlM`, `Takes.yields`;
* `anchoredForm`, **`anchoredSource`**: a source in a directory; `fileMarks`, `fileNote`: its texts
  that are marked as files, and what is noted of them; **`takes_run_anchored`**;
* `sourceAt`, **`imported?`**: what an import target brings, with `yields_loadImport`;
* `overImports`, `overTemplate`, **`laidOver`**: a dictionary over its imports and its template,
  with `yields_expandDict`.
-/

namespace ResourceTree

namespace Action

variable {σ α β : Type} {setting : Setting σ} {hs : Handles} {a : α} {b : β} {action : Action σ α}
  {f : α → Action σ β}

/-- **An action that comes to `a`** from wherever handles show the same, and only takes notes. -/
def Yields (setting : Setting σ) (hs : Handles) (a : α) (action : Action σ α) : Prop :=
  ∀ p : Progress σ, p.store.handles.value = hs.value →
    ∃ added, action.run setting p = (.ok a, p.notes added)

/-! ## One after the other -/

theorem yields_pure : Yields setting hs a (pure a) := fun _ _ => ⟨[], rfl⟩

/-- An action comes to one outcome only. -/
theorem Yields.unique {a' : α} (h : Yields setting hs a action) (h' : Yields setting hs a' action) :
    a = a' := by
  obtain ⟨_, hrun⟩ := h (Progress.initial ⟨hs, #[]⟩) rfl
  obtain ⟨_, hrun'⟩ := h' (Progress.initial ⟨hs, #[]⟩) rfl
  exact Except.ok.inj (Prod.mk.inj (hrun.symm.trans hrun')).1

theorem Yields.bind (h : Yields setting hs a action) (hf : Yields setting hs b (f a)) :
    Yields setting hs b (action >>= f) := by
  intro p hp
  obtain ⟨added, hrun⟩ := h p hp
  obtain ⟨more, hrest⟩ := hf (p.notes added) (by rwa [Progress.store_notes])
  exact ⟨added ++ more, by rw [run_bind_of_ok hrun, hrest, Progress.notes_append]⟩

theorem yields_read_bind {f : Setting σ → Action σ β} (h : Yields setting hs b (f setting)) :
    Yields setting hs b (read >>= f) := h

theorem yields_handles_bind {f : Handles → Action σ β}
    (h : ∀ seen : Handles, seen.value = hs.value → Yields setting hs b (f seen)) :
    Yields setting hs b (handles >>= f) := fun p hp => h p.store.handles hp p hp

theorem yields_addError_pure (place : Place) (kind : Diagnostic.Kind) (message : String) (a : α) :
    Yields setting hs a (addError place kind message >>= fun _ => pure a) :=
  fun _ _ => ⟨[.diagnostic ⟨kind, place.pathText, message⟩], rfl⟩

theorem yields_resolveFile (dir : Path) (raw : String) :
    Yields setting hs (setting.files.canonicalize (dir.join raw))
      (resolveFile dir raw : Action σ _) := by
  intro p _
  rw [run_resolveFile]
  cases setting.files.canonicalize (dir.join raw) with
  | error e => exact ⟨[], rfl⟩
  | ok path => exact ⟨[.file path], rfl⟩

theorem yields_foldlM {f : β → α → Action σ β} {g : β → α → β} (xs : List α)
    (h : ∀ b, ∀ x ∈ xs, Yields setting hs (g b x) (f b x)) (b : β) :
    Yields setting hs (xs.foldl g b) (xs.foldlM f b) := by
  induction xs generalizing b with
  | nil => exact yields_pure
  | cons x xs ih =>
    rw [List.foldlM_cons]
    exact (h b x List.mem_cons_self).bind (ih (fun b y hy => h b y (List.mem_cons_of_mem x hy)) _)

theorem Takes.yields {added : List Note} (h : Takes setting added a action) :
    Yields setting hs a action := fun p _ => ⟨added, h p⟩

end Action

namespace Compile

open ResourceTree.Action

variable {σ : Type} {setting : Setting σ} {hs : Handles} {place : Place} {d : Dict Value}

/-! ## Anchored sources -/

mutual

/-- **What a value becomes in a source in a directory**; what names a missing file is dropped. -/
def anchoredForm (files : FileView) (dir : Path) : Value → Option Value
  | .dict ⟨_, entries⟩ =>
    some (.dict (anchorMember dir ((Dict.inKeyOrder (memberForms files dir entries)).foldl
      (fun out member => Place.setResult out member.1 member.2) ∅)))
  | .list items => some (.list (elementForms files dir items))
  | .string text =>
    match Reserved.afterMark? Reserved.fileMark text with
    | some raw => (files.canonicalize (dir.join raw)).toOption.map fun path => .string path.text
    | none => some (.string text)
  | v => some v

def memberForms (files : FileView) (dir : Path) :
    List (String × Value) → List (String × Option Value)
  | [] => []
  | (name, v) :: rest => (name, anchoredForm files dir v) :: memberForms files dir rest

def elementForms (files : FileView) (dir : Path) : List Value → List Value
  | [] => []
  | item :: rest => (anchoredForm files dir item).toList ++ elementForms files dir rest

end

/-- The members of a dictionary in a source, before its import is put behind the directory. -/
def anchoredMembers (files : FileView) (dir : Path) (d : Dict Value) : Dict Value :=
  Place.collect ∅ ((Dict.inKeyOrder d.entries).map fun entry =>
    (entry, anchoredForm files dir entry.2))

/-- **A source in a directory, anchored.** -/
def anchoredSource (files : FileView) (dir : Path) (d : Dict Value) : Dict Value :=
  anchorMember dir (anchoredMembers files dir d)

section Forms

variable (files : FileView) (dir : Path)

theorem memberForms_eq (entries : List (String × Value)) :
    memberForms files dir entries = entries.map (Prod.map id (anchoredForm files dir)) := by
  induction entries with
  | nil => rfl
  | cons entry rest ih => rw [memberForms, ih]; rfl

theorem elementForms_eq (items : List Value) :
    elementForms files dir items = items.filterMap (anchoredForm files dir) := by
  induction items with
  | nil => rfl
  | cons item rest ih =>
    rw [elementForms, ih, List.filterMap_cons]
    cases anchoredForm files dir item <;> rfl

theorem anchoredForm_dict (d : Dict Value) :
    anchoredForm files dir (.dict d) = some (.dict (anchoredSource files dir d)) := by
  obtain ⟨storage, entries⟩ := d
  rw [anchoredForm, memberForms_eq, Dict.inKeyOrder_map, List.foldl_map, anchoredSource,
    anchoredMembers, Place.collect, List.foldl_map]
  rfl

theorem anchoredForm_list (items : List Value) : anchoredForm files dir (.list items) =
    some (.list (items.filterMap (anchoredForm files dir))) := by
  rw [anchoredForm, elementForms_eq]

theorem anchorImports_eq (items : List Value) :
    anchorImports dir items = items.map (anchorImport dir) := by
  induction items with
  | nil => rfl
  | cons item rest ih => rw [anchorImports, ih, List.map_cons]

end Forms

theorem anchoredForm_other {files : FileView} {dir : Path} {v : Value} (hdict : ∀ d, v ≠ .dict d)
    (hlist : ∀ items, v ≠ .list items) : anchoredForm files dir v =
      match v.asString?.bind (Reserved.afterMark? Reserved.fileMark) with
      | some raw => (files.canonicalize (dir.join raw)).toOption.map fun path => .string path.text
      | none => some v := by
  cases v with
  | dict d => exact absurd rfl (hdict d)
  | list items => exact absurd rfl (hlist items)
  | string text =>
    rw [anchoredForm]
    show _ = match Reserved.afterMark? Reserved.fileMark text with
      | some raw => _
      | none => _
    cases Reserved.afterMark? Reserved.fileMark text <;> rfl
  | _ => rw [anchoredForm] <;> first | rfl | exact nofun

/-! ### Texts that are marked as files -/

/-- A text that is marked as a file, without the mark, behind the path that leads to it. -/
abbrev FileMark := List Step × String

/-- The same text, seen from one step further up. -/
def FileMark.under (step : Step) (mark : FileMark) : FileMark := (step :: mark.1, mark.2)

mutual

/-- The texts in a value that are marked as files. Members come in key order. -/
def fileMarks : Value → List FileMark
  | .dict ⟨_, entries⟩ => (Dict.inKeyOrder (memberMarks entries)).flatMap fun member =>
    member.2.map (FileMark.under (.member member.1))
  | .list items => elementMarks 0 items
  | .string text => ((Reserved.afterMark? Reserved.fileMark text).map ([], ·)).toList
  | _ => []

def memberMarks : List (String × Value) → List (String × List FileMark)
  | [] => []
  | (name, v) :: rest => (name, fileMarks v) :: memberMarks rest

def elementMarks : Nat → List Value → List FileMark
  | _, [] => []
  | i, item :: rest =>
    (fileMarks item).map (FileMark.under (.element i)) ++ elementMarks (i + 1) rest

end

theorem fileMarks_dict (d : Dict Value) : fileMarks (.dict d) =
    (Dict.inKeyOrder d.entries).flatMap fun entry =>
      (fileMarks entry.2).map (FileMark.under (.member entry.1)) := by
  have hmembers : ∀ entries : List (String × Value),
      memberMarks entries = entries.map (Prod.map id fileMarks) := by
    intro entries
    induction entries with
    | nil => rfl
    | cons entry rest ih => rw [memberMarks, ih]; rfl
  obtain ⟨storage, entries⟩ := d
  rw [fileMarks, hmembers, Dict.inKeyOrder_map, List.flatMap_map]
  rfl

theorem fileMarks_list (items : List Value) : fileMarks (.list items) =
    items.zipIdx.flatMap fun pair => (fileMarks pair.1).map (FileMark.under (.element pair.2)) := by
  have helements : ∀ i, elementMarks i items = (items.zipIdx i).flatMap fun pair =>
      (fileMarks pair.1).map (FileMark.under (.element pair.2)) := by
    intro i
    induction items generalizing i with
    | nil => rfl
    | cons item rest ih => rw [elementMarks, ih, List.zipIdx_cons, List.flatMap_cons]
  rw [fileMarks, helements]

theorem fileMarks_other {v : Value} (hdict : ∀ d, v ≠ .dict d)
    (hlist : ∀ items, v ≠ .list items) : fileMarks v =
      ((v.asString?.bind (Reserved.afterMark? Reserved.fileMark)).map ([], ·)).toList := by
  cases v with
  | dict d => exact absurd rfl (hdict d)
  | list items => exact absurd rfl (hlist items)
  | string text => rw [fileMarks]; rfl
  | _ => rw [fileMarks] <;> first | rfl | exact nofun

/-- What is noted of a marked text: its file, or that it is missing. -/
def fileNote (files : FileView) (dir : Path) (mark : FileMark) : Note :=
  match files.canonicalize (dir.join mark.2) with
  | .ok file => .file file
  | .error e =>
    .diagnostic ⟨.resolution, Step.render mark.1, s!"missing file '{mark.2}': {e.message}"⟩

/-- What is noted of the marked texts in a value at a place. -/
def notesAt (files : FileView) (dir : Path) (place : Place) (v : Value) : List Note :=
  (fileMarks v).map fun mark => fileNote files dir (place.path ++ mark.1, mark.2)

theorem notesAt_dict (files : FileView) (dir : Path) (place : Place) (d : Dict Value) :
    notesAt files dir place (.dict d) = (Dict.inKeyOrder d.entries).flatMap fun entry =>
      notesAt files dir (place.member entry.1) entry.2 := by
  rw [notesAt, fileMarks_dict, List.map_flatMap]
  simp [notesAt, FileMark.under, Function.comp_def]

theorem notesAt_list (files : FileView) (dir : Path) (place : Place) (items : List Value) :
    notesAt files dir place (.list items) = items.zipIdx.flatMap fun pair =>
      notesAt files dir (place.element pair.2) pair.1 := by
  rw [notesAt, fileMarks_list, List.map_flatMap]
  simp [notesAt, FileMark.under, Function.comp_def]

theorem takes_anchored_other {dir : Path} {v : Value} (place : Place) (hdict : ∀ d, v ≠ .dict d)
    (hlist : ∀ items, v ≠ .list items) :
    Takes setting (notesAt setting.files dir place v) (anchoredForm setting.files dir v)
      ((anchored dir).visitOther ((anchored dir).revisits 0) v none place) := by
  rw [anchoredForm_other hdict hlist, notesAt, fileMarks_other hdict hlist]
  unfold Rewrite.visitOther anchored
  dsimp only
  cases v.asString?.bind (Reserved.afterMark? Reserved.fileMark) with
  | none => exact takes_pure _
  | some raw =>
    simp only [anchorFile, bind_assoc]
    have hresolve : Takes setting _ _ (resolveFile dir raw : Action σ _) :=
      takes_resolveFile dir raw
    show Takes setting [fileNote setting.files dir (place.path ++ [], raw)] _ _
    unfold fileNote
    rw [List.append_nil]
    cases hfile : setting.files.canonicalize (dir.join raw) with
    | error e =>
      rw [hfile] at hresolve
      refine hresolve.bind ?_
      simp only [bind_assoc, pure_bind]
      exact (takes_addError place _ _).bind_pure _
    | ok path =>
      rw [hfile] at hresolve
      exact hresolve.bind (takes_pure _)

/-- **To anchor a value comes to its anchored form, with a note of every marked text.** -/
theorem takes_anchored (dir : Path) (v : Value) (place : Place) :
    Takes setting (notesAt setting.files dir place v) (anchoredForm setting.files dir v)
      ((anchored dir).visitWithin 0 v place) := by
  induction v using Value.induct generalizing place with
  | dict d ih =>
    rw [Rewrite.visitWithin_dict, (descends_anchored dir).visitDict_eq,
      Rewrite.runMembers_sequential rfl, Dict.inKeyOrder_map, anchoredForm_dict, notesAt_dict]
    exact (takes_runSequential fun entry hentry =>
      ih entry (Dict.inKeyOrder_subset hentry) _).bind_pure _
  | list items ih =>
    rw [Rewrite.visitWithin_items, anchoredForm_list, notesAt_list]
    unfold Rewrite.visitOther
    rw [(descends_anchored dir).onItems, pure_bind]
    exact (takes_runElements 0 fun item hitem i => ih item hitem _).bind_pure _
  | _ =>
    rw [Rewrite.visitWithin_other (by simp) (by simp)]
    exact takes_anchored_other place (by simp) (by simp)

theorem yields_anchored (dir : Path) (v : Value) (place : Place) :
    Yields setting hs (anchoredForm setting.files dir v)
      ((anchored dir).visitWithin 0 v place) := (takes_anchored dir v place).yields

/-- An import that is put behind a directory has as little inside that is not well formed. -/
theorem wellFormed_anchorImport (dir : Path) {v : Value} (h : v.WellFormed) :
    (anchorImport dir v).WellFormed := by
  induction v using Value.induct with
  | string text =>
    unfold anchorImport
    split <;> exact Value.wellFormed_leaf (by simp) (by simp)
  | list items ih =>
    rw [anchorImport, anchorImports_eq]
    exact Value.wellFormed_list (List.forall_mem_map.mpr fun item hi => ih item hi (h.item hi))
  | _ => exact h

theorem wellFormed_anchorMember (dir : Path) (h : (Value.dict d).WellFormed) :
    (Value.dict (anchorMember dir d)).WellFormed := by
  unfold anchorMember
  split
  · next target htarget =>
    have hentry := Dict.mem_of_get? htarget
    exact Value.wellFormed_set h (wellFormed_anchorImport dir (h.member hentry))
  · exact h

/-- Whatever a source holds, what it is anchored as is well formed. -/
theorem wellFormed_anchoredForm {files : FileView} {dir : Path} {v w : Value}
    (hw : anchoredForm files dir v = some w) : w.WellFormed := by
  induction v using Value.induct generalizing w with
  | dict d ih =>
    rw [anchoredForm_dict] at hw
    obtain rfl := Option.some.inj hw
    refine wellFormed_anchorMember dir (Value.wellFormed_dict Place.wellFormed_collect
      Place.nullFree_collect fun entry hentry => ?_)
    obtain ⟨member, hmember, -, hresult⟩ := Place.mem_of_mem_collect hentry
    obtain ⟨found, hfound, rfl⟩ := List.mem_map.mp hmember
    exact ih found (Dict.inKeyOrder_subset hfound) hresult
  | list items ih =>
    rw [anchoredForm_list] at hw
    obtain rfl := Option.some.inj hw
    refine Value.wellFormed_list fun w hw => ?_
    obtain ⟨item, hitem, hform⟩ := List.mem_filterMap.mp hw
    exact ih item hitem hform
  | _ =>
    rw [anchoredForm_other (by simp) (by simp)] at hw
    split at hw
    · obtain ⟨path, -, rfl⟩ := Option.map_eq_some_iff.mp hw
      exact Value.wellFormed_leaf nofun nofun
    · obtain rfl := Option.some.inj hw
      exact Value.wellFormed_leaf nofun nofun

theorem wellFormed_anchoredSource (files : FileView) (dir : Path) (d : Dict Value) :
    (Value.dict (anchoredSource files dir d)).WellFormed :=
  wellFormed_anchoredForm (anchoredForm_dict files dir d)

/-- **To anchor a source comes to the anchored source**, with a note of every marked text. -/
theorem takes_run_anchored (dir : Path) (d : Dict Value) :
    Takes setting (.worker :: (fileMarks (.dict d)).map (fileNote setting.files dir))
      (anchoredSource setting.files dir d) ((anchored dir).run 0 d) := by
  unfold Rewrite.run
  refine takes_nextWorker_bind fun worker => ?_
  have hvisit : Takes setting _ _ ((anchored dir).visitWithin 0 (.dict d) (Place.root worker)) :=
    takes_anchored dir (.dict d) (Place.root worker)
  rw [anchoredForm_dict] at hvisit
  rw [← List.append_nil ((fileMarks (.dict d)).map (fileNote setting.files dir))]
  exact hvisit.bind (takes_pure _)

theorem yields_run_anchored (dir : Path) (d : Dict Value) :
    Yields setting hs (anchoredSource setting.files dir d) ((anchored dir).run 0 d) :=
  (takes_run_anchored dir d).yields

/-! ## Imports -/

/-- The source in a file, anchored where the file lies. -/
def sourceAt (files : FileView) (file : Path) : Option (Dict Value) :=
  (files.source file).toOption.map (anchoredSource files ((file.parent?).getD ⟨"/"⟩))

/-- **The dictionary that an import target brings**, if its file is found and holds a source. -/
def imported? (setting : Setting σ) (target : Value) : Option (Dict Value) := do
  let text ← target.asString?
  let file ← (setting.files.canonicalize (setting.basePath.join (namedFile text))).toOption
  sourceAt setting.files file

theorem imported?_of_text {target : Value} {text : String} (htext : target.asString? = some text) :
    imported? setting target = (setting.files.canonicalize
      (setting.basePath.join (namedFile text))).toOption.bind (sourceAt setting.files) := by
  unfold imported?
  rw [htext]
  rfl

theorem wellFormed_imported? {target : Value} {under : Dict Value}
    (h : imported? setting target = some under) : (Value.dict under).WellFormed := by
  simp only [imported?, sourceAt, bind, Option.bind_eq_some_iff, Option.map_eq_some_iff] at h
  obtain ⟨text, -, file, -, source, -, rfl⟩ := h
  exact wellFormed_anchoredSource setting.files _ source

/-- **To load an import comes to the dictionary that its target brings.** -/
theorem yields_loadImport (place : Place) (target : Value) :
    Yields setting hs (imported? setting target) (loadImport place target) := by
  unfold loadImport
  cases htext : target.asString? with
  | none =>
    have hnone : imported? setting target = none := by
      unfold imported?
      rw [htext]
      rfl
    rw [hnone]
    exact yields_addError_pure place _ _ none
  | some text =>
    rw [imported?_of_text htext]
    unfold namedFile
    refine yields_read_bind ((yields_resolveFile _ _).bind ?_)
    cases setting.files.canonicalize (setting.basePath.join
        ((Reserved.afterMark? Reserved.fileMark text).getD text)) with
    | error e => exact yields_addError_pure place _ _ none
    | ok file =>
      simp only [pure_bind, FileView.source_pair, Except.toOption, Option.bind_some, sourceAt]
      cases setting.files.source file with
      | error e => exact yields_addError_pure place _ _ none
      | ok source =>
        dsimp only [Except.map]
        rw [map_eq_pure_bind]
        exact (yields_run_anchored _ source).bind yields_pure

/-- A dictionary with some more under it, those that come first on top. -/
def layers (hs : Handles) (fs : List (Dict Value)) (d : Dict Value) : Dict Value :=
  fs.foldl (fun upper lower => layer hs lower upper) d

/-- **A dictionary over its imports.** -/
def overImports (setting : Setting σ) (hs : Handles) (d : Dict Value) : Dict Value :=
  match d.get? Reserved.import_ with
  | none => d
  | some target =>
    layers hs ((importTargets target).filterMap (imported? setting)) (d.erase Reserved.import_)

theorem yields_applyImports (place : Place) (d : Dict Value) :
    Yields setting hs (overImports setting hs d) (applyImports place d) := by
  unfold overImports applyImports
  cases d.get? Reserved.import_ with
  | none => exact yields_pure
  | some target =>
    dsimp only [layers]
    rw [List.foldl_filterMap]
    refine yields_foldlM _ (fun local_ target _ => (yields_loadImport place target).bind ?_) _
    cases imported? setting target with
    | none => exact yields_pure
    | some imported =>
      refine yields_handles_bind fun seen hseen => ?_
      rw [layer_congr hseen]
      exact yields_pure

/-! ## Templates -/

/-- **A dictionary over its template**, if that is found. -/
def overTemplate (hs : Handles) (place : Place) (d : Dict Value) : Dict Value :=
  match d.get? Reserved.template with
  | none => d
  | some template =>
    match template.asString?.bind (findTemplate hs place (d.erase Reserved.template)) with
    | some under => layer hs under (d.erase Reserved.template)
    | none => d.erase Reserved.template

theorem yields_applyTemplate (place : Place) (d : Dict Value) :
    Yields setting hs (overTemplate hs place d) (applyTemplate place d) := by
  unfold overTemplate applyTemplate
  cases d.get? Reserved.template with
  | none => exact yields_pure
  | some template =>
    dsimp only
    cases template.asString? with
    | none => exact yields_addError_pure place _ _ _
    | some name =>
      refine yields_handles_bind fun seen hseen => ?_
      rw [findTemplate_congr hseen, Option.bind_some]
      cases findTemplate hs place (d.erase Reserved.template) name with
      | none => exact yields_addError_pure place _ _ _
      | some under =>
        dsimp only
        rw [layer_congr hseen]
        exact yields_pure

/-- **What a dictionary comes to over its imports and its template.** -/
def laidOver (setting : Setting σ) (hs : Handles) (place : Place) (d : Dict Value) : Dict Value :=
  overTemplate hs place (overImports setting hs d)

/-- **To lay a dictionary over others comes to the dictionary laid over them.** -/
theorem yields_expandDict (place : Place) (d : Dict Value) :
    Yields setting hs (laidOver setting hs place d) (expandDict place d) :=
  (yields_applyImports place d).bind (yields_applyTemplate place _)

end Compile

end ResourceTree
