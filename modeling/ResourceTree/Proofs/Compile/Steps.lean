import ResourceTree.Compile.Output
import ResourceTree.Proofs.Compile.Traced
import ResourceTree.Proofs.Value.Shape

/-!
# The steps of a compile are traced

Every step of a compile records the files that it looks at. What a step can see of files is where
they lie and, of imports, what they read as.

* `traced_perform`: loads;
* `Rewrite.Traced`, **`Rewrite.traced_run`**: walks, from what a rewrite plans at one place;
* `traced_anchored`, **`traced_expanded`**, `traced_instantiated`, `traced_finished`,
  `traced_extended`, `traced_saved`: the steps.
-/

namespace ResourceTree

open ResourceTree.Action

variable {σ : Type}

/-! ## Loads -/

theorem Loading.traced_perform {α : Type} (place : Place) (loading : Loading α) :
    (loading.perform place : Action σ _).Traced := by
  induction loading with
  | done result => exact traced_pure trivial
  | failed failure =>
    cases failure with
    | error e => exact traced_pure trivial
    | panic p => exact traced_crash place p
  | report message next ih => exact traced_bind (loud_addError place _ message).traced fun _ _ => ih
  | file path next ih =>
    unfold perform
    refine traced_read_bind (fun _ _ => rfl) fun s =>
      traced_resolveFile_bind (fun e => ?_) fun found => ?_
    · exact loud_bind (loud_addError place _ _) fun _ _ => ih none
    · exact ih (some found)
  | reference name next ih => exact traced_bind (traced_reference name) fun h _ => ih h

/-! ## Walks -/

/-- A visit that is traced wherever it is made. -/
def Visit.Traced (visit : Visit σ) : Prop := ∀ place, Action.Traced (visit place)

/-- What a plan goes on with is traced. -/
def DictPlan.Traced : DictPlan σ → Prop
  | .members _ _ finish => ∀ out, (finish out).Traced
  | _ => True

def OtherPlan.Traced : OtherPlan σ → Prop
  | .unfold _ finish => ∀ out, (finish out).Traced
  | _ => True

/-- A rewrite whose plans are traced. -/
structure Rewrite.Traced (rw : Rewrite σ) : Prop where
  onDict : ∀ place d, TracedTo DictPlan.Traced (rw.onDict place d)
  onOther : ∀ place v, TracedTo OtherPlan.Traced (rw.onOther place v)

namespace Place

variable {branches : List (Branch σ)}

theorem traced_runSequential (place : Place) (h : ∀ branch ∈ branches, branch.2.Traced) :
    (place.runSequential branches).Traced :=
  traced_foldlM branches (fun _ branch hbranch =>
    traced_bind (h branch hbranch _) fun _ _ => traced_pure trivial) ∅

theorem traced_runElements (place : Place) {visits : List (Visit σ)} (index : Nat)
    (h : ∀ visit ∈ visits, visit.Traced) : (place.runElements index visits).Traced := by
  induction visits generalizing index with
  | nil => exact traced_pure trivial
  | cons visit rest ih =>
    obtain ⟨hvisit, hrest⟩ := List.forall_mem_cons.mp h
    exact traced_bind (hvisit _) fun _ _ => traced_bind (ih (index + 1) hrest) fun _ _ =>
      traced_pure trivial

end Place

namespace Rewrite

variable {rw : Rewrite σ} {again : Value → Visit σ}

/-- One worker visits members one after another. -/
theorem run_runMembers {place : Place} {branches : List (Branch σ)} {setting : Setting σ}
    {p : Progress σ} (hfan : setting.fanOut = none) :
    (rw.runMembers place branches).run setting p =
      (place.runSequential (Dict.inKeyOrder branches)).run setting p := by
  unfold runMembers
  rw [run_read_bind, hfan]

theorem traced_runMembers (place : Place) {branches : List (Branch σ)}
    (h : ∀ branch ∈ branches, branch.2.Traced) : (rw.runMembers place branches).Traced := by
  intro setting p r q hfan hrun
  rw [run_runMembers hfan] at hrun
  have h := place.traced_runSequential (fun branch hbranch =>
    h branch (Dict.inKeyOrder_subset hbranch)) setting p r q hfan hrun
  refine ⟨h.grows, h.outcome, fun herrors w hw => ?_⟩
  have hfan' : (setting.withFiles w).fanOut = none := hfan
  rw [run_runMembers hfan']
  exact h.again herrors w hw

theorem traced_visitDict (hrw : rw.Traced) (hagain : ∀ v, (again v).Traced) (d : Dict Value)
    {branches : List (Branch σ)} (h : ∀ branch ∈ branches, branch.2.Traced) :
    (rw.visitDict again d branches).Traced := by
  intro place
  refine traced_bind (hrw.onDict place d) fun plan hplan => ?_
  cases plan with
  | drop => exact traced_pure trivial
  | revisit d => exact hagain (.dict d) _
  | members without scope finish =>
    refine traced_bind (traced_runMembers _ fun branch hbranch => ?_) fun out _ => hplan out
    exact h branch (List.mem_of_mem_filter hbranch)

theorem traced_visitOther (hrw : rw.Traced) (hagain : ∀ v, (again v).Traced) (v : Value)
    {elements : Option (List (Visit σ))} (h : ∀ visits ∈ elements, ∀ visit ∈ visits, visit.Traced) :
    (rw.visitOther again v elements).Traced := by
  intro place
  refine traced_bind (hrw.onOther place v) fun plan hplan => ?_
  cases plan with
  | drop => exact traced_pure trivial
  | keep v => exact traced_pure trivial
  | revisit v => exact hagain v _
  | unfold d finish =>
    refine traced_bind (traced_runMembers _ fun branch hbranch => ?_) fun out _ => hplan out
    obtain ⟨entry, -, rfl⟩ := List.mem_map.mp hbranch
    exact hagain entry.2
  | elements =>
    cases elements with
    | none => exact traced_pure trivial
    | some visits =>
      exact traced_bind (place.traced_runElements 0 (h visits rfl)) fun _ _ => traced_pure trivial

theorem memberVisits_eq (entries : List (String × Value)) : memberVisits rw again entries =
    entries.map fun entry => (entry.1, visitUsing rw again entry.2) := by
  induction entries with
  | nil => rfl
  | cons entry rest ih => rw [memberVisits, ih]; rfl

theorem elementVisits_eq (items : List Value) :
    elementVisits rw again items = items.map (visitUsing rw again) := by
  induction items with
  | nil => rfl
  | cons item rest ih => rw [elementVisits, ih]; rfl

theorem traced_visitUsing (hrw : rw.Traced) (hagain : ∀ v, (again v).Traced) (v : Value) :
    (rw.visitUsing again v).Traced := by
  induction v using Value.induct with
  | dict d ih =>
    rw [visitUsing]
    refine traced_visitDict hrw hagain d fun branch hbranch => ?_
    rw [memberVisits_eq] at hbranch
    obtain ⟨entry, hentry, rfl⟩ := List.mem_map.mp hbranch
    exact ih entry hentry
  | list items ih =>
    rw [visitUsing]
    refine traced_visitOther hrw hagain _ fun visits hvisits visit hvisit => ?_
    obtain rfl := Option.some.inj hvisits
    rw [elementVisits_eq] at hvisit
    obtain ⟨item, hitem, rfl⟩ := List.mem_map.mp hvisit
    exact ih item hitem
  | _ =>
    rw [visitUsing]
    · exact traced_visitOther hrw hagain _ fun _ h => nomatch h
    · exact nofun
    · exact nofun

theorem traced_visitWithin (hrw : rw.Traced) (levels : Nat) (v : Value) :
    (rw.visitWithin levels v).Traced := by
  induction levels generalizing v with
  | zero => exact traced_visitUsing hrw (fun _ place => traced_crash place _) v
  | succ levels ih => exact traced_visitUsing hrw ih v

/-- **The walk of a rewrite whose plans are traced is traced.** -/
theorem traced_run (hrw : rw.Traced) (levels : Nat) (d : Dict Value) :
    (rw.run levels d).Traced := by
  refine traced_bind traced_nextWorker fun worker _ =>
    traced_bind (traced_visitWithin hrw levels _ _) fun out _ => ?_
  cases out with
  | none => exact traced_pure trivial
  | some v =>
    cases v with
    | dict d => exact traced_pure trivial
    | _ => exact traced_bind traced_handles fun _ _ => traced_pure trivial

end Rewrite

/-! ## The steps -/

namespace Compile

/-- The plan that goes on with the dictionary of the results as it is. -/
theorem traced_members (without : List String) (scope : Option (Dict Value))
    {finish : Dict Value → Action σ (Option Value)} (h : ∀ out, (finish out).Traced) :
    TracedTo DictPlan.Traced (pure (.members without scope finish) : Action σ _) := traced_pure h

theorem traced_anchorFile (dir : Path) (place : Place) (raw : String) :
    TracedTo OtherPlan.Traced (anchorFile dir place raw : Action σ _) :=
  traced_resolveFile_bind (fun _ => loud_addError_pure place _ _ trivial) fun _ =>
    traced_pure trivial

theorem traced_anchored (dir : Path) : (anchored dir : Rewrite σ).Traced where
  onDict _ _ := traced_members _ _ fun _ => traced_pure trivial
  onOther place v := by
    unfold anchored
    dsimp only
    split
    · next raw _ => exact traced_anchorFile dir place raw
    · exact traced_pure trivial

theorem traced_loadImport (place : Place) (target : Value) :
    (loadImport place target : Action σ _).Traced := by
  unfold loadImport
  split
  · exact (loud_addError_pure place _ _ trivial).traced
  · refine traced_source_bind (g := fun path d =>
      some <$> (anchored ((path.parent?).getD ⟨"/"⟩)).run 0 d) (fun _ _ => rfl) (fun s e => ?_)
        (fun s path e he => ?_) (fun s path d hd => ?_) fun path d => ?_
    · simp only [pure_bind]
      exact loud_addError_pure place _ _ trivial
    · simp only [pure_bind, FileView.source_pair, he]
      exact loud_addError_pure place _ _ trivial
    · simp only [pure_bind, FileView.source_pair, hd]
      rfl
    · rw [map_eq_pure_bind]
      exact traced_bind (Rewrite.traced_run (traced_anchored _) 0 d) fun _ _ => traced_pure trivial

theorem traced_applyImports (place : Place) (d : Dict Value) :
    (applyImports place d : Action σ _).Traced := by
  unfold applyImports
  split
  · exact traced_pure trivial
  · refine traced_foldlM _ (fun local_ target _ => ?_) _
    refine traced_bind (traced_loadImport place target) fun found _ => ?_
    cases found with
    | none => exact traced_pure trivial
    | some imported => exact traced_bind traced_handles fun _ _ => traced_pure trivial

theorem traced_applyTemplate (place : Place) (d : Dict Value) :
    (applyTemplate place d : Action σ _).Traced := by
  unfold applyTemplate
  split
  · exact traced_pure trivial
  · split
    · exact (loud_addError_pure place _ _ trivial).traced
    · refine traced_bind traced_handles fun hs _ => ?_
      split
      · exact traced_pure trivial
      · exact (loud_addError_pure place _ _ trivial).traced

theorem traced_expandValue (place : Place) (path : String) :
    TracedTo OtherPlan.Traced (expandValue place path : Action σ _) := by
  unfold expandValue
  split
  · exact (loud_addError_pure place _ _ trivial).traced
  · refine traced_bind traced_handles fun hs _ => ?_
    split
    · exact traced_pure trivial
    · exact (loud_addError_pure place _ _ trivial).traced

theorem traced_expandString (place : Place) (text : String) :
    TracedTo OtherPlan.Traced (expandString place text : Action σ _) := by
  unfold expandString
  split
  · exact traced_expandValue place _
  · split
    · exact traced_bind (traced_reference _) fun _ _ => traced_pure trivial
    · exact traced_pure trivial

theorem traced_expanded : (expanded : Rewrite σ).Traced where
  onDict place d := by
    unfold expanded
    dsimp only
    split
    · split
      · exact (loud_addError_pure place _ _ trivial).traced
      · exact traced_bind (traced_bind (traced_applyImports place d) fun _ _ =>
          traced_applyTemplate place _) fun _ _ => traced_pure trivial
    · exact traced_bind traced_handles fun _ _ => traced_members _ _ fun _ => traced_pure trivial
  onOther place v := by
    unfold expanded
    dsimp only
    split
    · exact traced_expandString place _
    · exact traced_pure trivial

section Objects

variable [ObjectClass σ]

theorem traced_loadObject (place : Place) (fresh : σ) (members : Dict Value) :
    (loadObject place fresh members).Traced := by
  unfold loadObject
  refine traced_read_bind (fun _ _ => rfl) fun s =>
    traced_bind (Loading.traced_perform place _) fun found _ => ?_
  cases found with
  | error e => exact (loud_addError_pure place _ _ trivial).traced
  | ok object =>
    refine traced_bind (traced_withStore _) fun ref _ => ?_
    dsimp only
    split
    · exact traced_bind (traced_publish _ _) fun _ _ => traced_pure trivial
    · exact traced_pure trivial

theorem traced_instantiate (place : Place) (members : Dict Value) :
    (instantiate place members : Action σ _).Traced := by
  unfold instantiate
  split
  · exact traced_pure trivial
  · split
    · exact traced_pure trivial
    · refine traced_read_bind (fun _ _ => rfl) fun s => ?_
      split
      · exact traced_loadObject place _ members
      · exact (loud_addError_pure place _ _ trivial).traced
    · exact (loud_addError_pure place _ _ trivial).traced

theorem traced_instantiated : (instantiated : Rewrite σ).Traced where
  onDict place _ := traced_members _ _ (traced_instantiate place)
  onOther _ _ := traced_pure trivial

theorem traced_finishAlone (place : Place) (ref : ObjectRef) :
    (finishAlone place ref : Action σ Unit).Traced := by
  unfold finishAlone
  refine traced_bind traced_store fun s _ => ?_
  split
  · split
    · exact traced_modifyGet (fun _ => rfl) fun _ => rfl
    · exact (loud_addError place _ _).traced
    · exact traced_crash place _
  · exact traced_pure trivial

omit [ObjectClass σ] in
theorem traced_visitDependencies {visit : ObjectRef → Action σ Unit}
    (hvisit : ∀ ref, (visit ref).Traced) (dependencies : List Value) :
    (visitDependencies visit dependencies).Traced := by
  refine traced_forM dependencies fun dependency _ => traced_bind traced_handles fun hs _ => ?_
  split
  · exact hvisit _
  · exact traced_pure trivial

theorem traced_finishObject (place : Place) (levels : Nat) (ref : ObjectRef) :
    (finishObject place levels ref : Action σ Unit).Traced := by
  induction levels generalizing ref with
  | zero => exact traced_pure trivial
  | succ levels ih =>
    unfold finishObject
    refine traced_bind traced_store fun s _ => ?_
    split
    · exact traced_pure trivial
    · next dependencies _ =>
      refine traced_bind (traced_withTable _) fun verdict _ => ?_
      cases verdict with
      | finished => exact traced_pure trivial
      | cycle => exact (loud_record _).traced
      | wait => exact traced_withTable _
      | begun =>
        exact traced_andFinally (traced_bind (traced_visitDependencies ih dependencies) fun _ _ =>
          traced_finishAlone place ref) (traced_withTable _)

theorem traced_finished : (finished : Rewrite σ).Traced where
  onDict _ _ := traced_members _ _ fun _ => traced_pure trivial
  onOther place v := by
    unfold finished
    dsimp only
    split
    · exact traced_bind traced_store fun s _ =>
        traced_bind (traced_finishObject place _ _) fun _ _ => traced_pure trivial
    · exact traced_pure trivial

theorem traced_offerOf (name : String) (ref : ObjectRef) :
    (offerOf name ref : Action σ _).Traced := by
  unfold offerOf
  refine traced_bind traced_store fun s _ => ?_
  split
  · exact traced_pure trivial
  · split
    · exact traced_pure trivial
    · exact traced_throw _

omit [ObjectClass σ] in
theorem traced_addSibling (owner : String) (root : Dict Value) (entry : String × Value) :
    (addSibling owner root entry : Action σ _).Traced := by
  unfold addSibling
  split
  · exact traced_bind (loud_record _).traced fun _ _ => traced_pure trivial
  · exact traced_bind (traced_publish _ _) fun _ _ => traced_pure trivial

theorem traced_addSiblings (root : Dict Value) (entry : String × Value) :
    (addSiblings root entry : Action σ _).Traced := by
  unfold addSiblings
  split
  · refine traced_bind (traced_offerOf _ _) fun offer _ => ?_
    cases offer with
    | none => exact traced_pure trivial
    | some offer =>
      exact traced_foldlM _ (fun root entry _ => traced_addSibling _ root entry) root
  · exact traced_pure trivial

theorem traced_extended (root : Dict Value) : (extended root : Action σ _).Traced :=
  traced_foldlM _ (fun root entry _ => traced_addSiblings root entry) root

omit [ObjectClass σ] in
theorem traced_packSaved (place : Place) (ref : ObjectRef) (members : Dict Value) :
    (packSaved place ref members : Action σ _).Traced := by
  unfold packSaved
  split
  · exact traced_pure trivial
  · exact (loud_addError_pure place _ _ trivial).traced

theorem traced_saveObject (place : Place) (ref : ObjectRef) :
    TracedTo OtherPlan.Traced (saveObject place ref : Action σ _) := by
  unfold saveObject
  refine traced_bind traced_store fun s _ => ?_
  split
  · exact traced_pure trivial
  · split
    · exact traced_pure (traced_packSaved place ref)
    · exact (loud_addError_pure place _ _ trivial).traced
    · exact traced_crash place _

theorem traced_saved : (saved : Rewrite σ).Traced where
  onDict _ _ := traced_members _ _ fun _ => traced_pure trivial
  onOther place v := by
    unfold saved
    dsimp only
    split
    · exact traced_saveObject place _
    · exact traced_pure trivial

end Objects

end Compile

end ResourceTree
