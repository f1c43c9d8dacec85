import ResourceTree.Proofs.Expand.Visit
import ResourceTree.Proofs.Walk.Notes

/-!
# What a dictionary lies over

Laying a dictionary over its imports and its template visits nothing of it: it only takes notes, of
files that were read and of what could not be found.

* `noting_anchored`, `noting_loadImport`: the dictionary of an import;
* `noting_applyImports`, `noting_applyTemplate`, **`noting_expandDict`**;
* **`run_expandDict_template`**: a dictionary with a template and no import.
-/

namespace ResourceTree

open ResourceTree.Action

namespace Compile

variable {σ : Type} {setting : Setting σ} {place : Place} {d : Dict Value}

/-! ## Imports -/

theorem anyWorker_anchored (dir : Path) : (anchored dir : Rewrite σ).AnyWorker where
  onDict _ _ _ := rfl
  onOther _ _ _ := rfl
  fansOut _ _ := rfl

theorem noting_anchored (dir : Path) (v : Value) (place : Place) :
    Noting setting ((anchored dir).visitWithin 0 v place) := by
  have hother : ∀ (w : Value) (place : Place) (visits : Option (List (Visit σ))),
      (∀ vs ∈ visits, Noting setting (place.runElements 0 vs)) →
      Noting setting ((anchored dir).visitOther ((anchored dir).revisits 0) w visits place) := by
    intro w place visits hvisits
    unfold Rewrite.visitOther anchored
    dsimp only
    cases w.asString?.bind (Reserved.afterMark? Reserved.fileMark) with
    | none =>
      simp only [pure_bind]
      cases visits with
      | none => exact noting_pure _
      | some visits => exact (hvisits visits rfl).bind fun _ => noting_pure _
    | some raw =>
      simp only [anchorFile, bind_assoc]
      refine (noting_resolveFile dir raw).bind fun found => ?_
      cases found with
      | ok path =>
        simp only [pure_bind]
        exact noting_pure _
      | error e =>
        simp only [bind_assoc, pure_bind]
        exact (noting_addError place _ _).bind fun _ => noting_pure _
  induction v using Value.induct generalizing place with
  | dict d ih =>
    rw [Rewrite.visitWithin_dict]
    unfold Rewrite.visitDict
    simp only [anchored, pure_bind]
    rw [Rewrite.runMembers_sequential rfl, List.filter_map, Dict.inKeyOrder_map]
    refine Noting.bind (noting_runSequential _ fun entry hentry => ?_) fun _ => noting_pure _
    exact ih entry (List.mem_of_mem_filter (Dict.inKeyOrder_subset hentry)) _
  | list items ih =>
    rw [Rewrite.visitWithin_items]
    refine hother _ place _ fun visits hvisits => ?_
    obtain rfl := Option.some.inj hvisits
    exact noting_runElements place 0 fun item hitem i => ih item hitem _
  | _ =>
    rw [Rewrite.visitWithin_other (by simp) (by simp)]
    exact hother _ place none nofun

theorem noting_run_anchored (dir : Path) (d : Dict Value) :
    Noting setting ((anchored dir).run 0 d) := by
  rw [Rewrite.run_eq_root (anyWorker_anchored dir)]
  refine Noting.after_nextWorker ((noting_anchored dir _ _).bind fun result => ?_)
  split
  · exact noting_pure _
  · refine noting_handles_bind (fun hs hs' hsame => ?_) fun hs => noting_pure _
    rw [Handles.toDict?_congr hsame]
  · exact noting_pure _

theorem noting_loadImport (place : Place) (target : Value) :
    Noting setting (loadImport place target) := by
  unfold loadImport
  cases target.asString? with
  | none => exact (noting_addError place _ _).bind fun _ => noting_pure _
  | some text =>
    refine noting_read_bind (fun _ => rfl) ((noting_resolveFile _ _).bind fun found => ?_)
    cases found with
    | error e => exact (noting_addError place _ _).bind fun _ => noting_pure _
    | ok path =>
      simp only [pure_bind, FileView.source_pair]
      cases setting.files.source path with
      | error e => exact (noting_addError place _ _).bind fun _ => noting_pure _
      | ok imported =>
        dsimp only [Except.map]
        rw [map_eq_pure_bind]
        exact (noting_run_anchored _ imported).bind fun _ => noting_pure _

theorem noting_applyImports (place : Place) (d : Dict Value) :
    Noting setting (applyImports place d) := by
  unfold applyImports
  cases d.get? Reserved.import_ with
  | none => exact noting_pure d
  | some target =>
    refine noting_foldlM _ (fun lower target _ => ?_) _
    refine (noting_loadImport place target).bind fun found => ?_
    cases found with
    | none => exact noting_pure lower
    | some imported =>
      refine noting_handles_bind (fun hs hs' hsame => ?_) fun hs => noting_pure _
      rw [layer_congr hsame]

/-! ## Templates -/

theorem noting_applyTemplate (place : Place) (d : Dict Value) :
    Noting setting (applyTemplate place d) := by
  unfold applyTemplate
  cases d.get? Reserved.template with
  | none => exact noting_pure d
  | some template =>
    dsimp only
    cases template.asString? with
    | none => exact (noting_addError place _ _).bind fun _ => noting_pure _
    | some name =>
      refine noting_handles_bind (fun hs hs' hsame => ?_) fun hs => ?_
      · simp only [findTemplate_congr hsame, layer_congr hsame]
      · cases findTemplate hs place (d.erase Reserved.template) name with
        | some under => exact noting_pure _
        | none => exact (noting_addError place _ _).bind fun _ => noting_pure _

/-- **A dictionary is laid over its imports and its template** by taking notes only. -/
theorem noting_expandDict (place : Place) (d : Dict Value) :
    Noting setting (expandDict place d) :=
  (noting_applyImports place d).bind fun _ => noting_applyTemplate place _

/-- A dictionary without imports whose template is found lies over it, and nothing is noted. -/
theorem run_expandDict_template {p : Progress σ} {name : String} {under : Dict Value}
    (himport : d.get? Reserved.import_ = none)
    (htemplate : d.get? Reserved.template = some (.string name))
    (hfound : findTemplate p.store.handles place (d.erase Reserved.template) name = some under) :
    (expandDict place d).run setting p =
      (.ok (layer p.store.handles under (d.erase Reserved.template)), p) := by
  unfold expandDict applyImports
  rw [himport]
  dsimp only
  rw [pure_bind]
  unfold applyTemplate
  rw [htemplate]
  dsimp only [Value.asString?]
  rw [run_bind, run_handles]
  dsimp only
  rw [hfound]
  rfl

end Compile

end ResourceTree
