import ResourceTree.Proofs.Compile.ReadBack
import ResourceTree.Proofs.Compile.Rebuilt
import ResourceTree.Proofs.Expand.NormalForm
import ResourceTree.Proofs.Walk.Quiet

/-!
# No silent loss — what a step gives where it adds no diagnostic

Every step of a compile either adds a diagnostic or rebuilds the whole tree by its rules. So
whatever was dropped on the way has left a diagnostic.

* `quiet_run_anchored`: anchored trees;
* `quiet_loadImport`, `quiet_applyImports`, `quiet_applyTemplate`, **`quiet_expandDict`**: what a
  dictionary lies over; `quiet_expansion`, `quiet_run_expanded`: expanded trees;
* `quiet_run_instantiated`, `quiet_run_finished`, `quiet_extended`: live trees;
* `Complete`, `Saves.rebuilt`, `rebuilt_stripFlags`: saved trees, and trees without flags;
* **`Stage.rebuilds`**: every step.
-/

namespace ResourceTree

open ResourceTree.Action

namespace Compile

variable {σ : Type} {setting : Setting σ} {place : Place} {d : Dict Value} {v : Value}

/-! ## Anchored trees -/

theorem descends_anchored (dir : Path) : (anchored dir : Rewrite σ).Descends
    fun _ out => pure (some (.dict (anchorMember dir out))) where
  onDict _ _ := rfl
  onItems _ _ := rfl

theorem anchors_anchorMember (dir : Path) (h : d.WellFormed) (hd : d.NullFree) :
    Anchors dir d (anchorMember dir d) := by
  unfold anchorMember
  cases htarget : d.get? Reserved.import_ with
  | none => exact ⟨fun _ _ => rfl, fun _ h => nomatch htarget.symm.trans h⟩
  | some target =>
    have hne : anchorImport dir target ≠ .null := by
      have htarget := hd _ ((Dict.get?_eq_some_iff h).mp htarget)
      cases target with
      | null => exact absurd rfl htarget
      | string raw =>
        unfold anchorImport
        split <;> exact nofun
      | _ => exact nofun
    refine ⟨fun name hname => Dict.get?_set_of_ne h hname, fun other hother => ?_⟩
    obtain rfl := Option.some.inj (htarget.symm.trans hother)
    show (d.set Reserved.import_ (anchorImport dir target)).get? Reserved.import_ = _
    rw [Dict.set_of_ne_null hne, Dict.get?_insert_self]

theorem always_resolveFile (dir : Path) (raw : String) :
    Always setting (fun found => found = setting.files.canonicalize (dir.join raw))
      (resolveFile dir raw : Action σ _) := by
  intro p found q hrun
  rw [run_resolveFile] at hrun
  split at hrun
  · next hfound =>
    cases hrun
    exact hfound.symm
  · next hfound =>
    cases hrun
    exact hfound.symm

theorem rebuilt_anchorMember {files : FileView} {dir : Path} {members : Dict Value}
    (h : Place.Collects (fun entry => Survives (anchoring files dir) [] entry.2) ∅
      (Dict.inKeyOrder d.entries) members) :
    Rebuilt (anchoring files dir) [] (.dict d) (.dict (anchorMember dir members)) := by
  obtain ⟨hwf, hnull⟩ := h.clean
  exact .made rfl (rebuilt_of_all rfl rfl h)
    ⟨members, _, rfl, rfl, anchors_anchorMember dir hwf hnull⟩

theorem quiet_visit_anchored (dir : Path) (v : Value) (place : Place) :
    Quiet setting (Survives (anchoring setting.files dir) [] v)
      ((anchored dir).visitWithin 0 v place) := by
  rw [Rewrite.visitWithin_eq]
  refine quiet.says_visitUsing (fun _ => True) _ (descends_anchored dir)
    (fun _ _ _ _ => trivial) (fun _ _ _ _ => trivial) (fun place d out _ => ?_)
    (fun items out _ hout => survives_some (rebuilt_of_lists hout))
    (fun v place _ hdict hlist => ?_) v trivial place
  · exact quiet_pure fun hout => survives_some (rebuilt_anchorMember hout)
  · have hsingle := Value.isSingle_of_ne hdict hlist
    unfold Rewrite.visitOther anchored
    dsimp only
    cases hmark : v.asString?.bind (Reserved.afterMark? Reserved.fileMark) with
    | none =>
      refine quiet_pure (survives_some (.single ⟨hsingle, ?_⟩))
      rw [hmark]
    | some raw =>
      simp only [anchorFile, bind_assoc]
      refine (quiet_of_noting (noting_resolveFile dir raw)).bind_always
        (always_resolveFile dir raw) fun found hfound => ?_
      cases found with
      | error e =>
        simp only [bind_assoc, pure_bind]
        exact quiet_addError_pure place _ _ _
      | ok path =>
        simp only [pure_bind]
        refine quiet_pure fun _ => survives_some (.single ⟨hsingle, ?_⟩)
        rw [hmark]
        exact ⟨path, hfound.symm, rfl⟩

/-- **Anchored trees.** -/
theorem quiet_run_anchored (dir : Path) (d : Dict Value) :
    Quiet setting (fun out => Rebuilt (anchoring setting.files dir) [] (.dict d) (.dict out) ∧
      out.WellFormed ∧ out.NullFree) ((anchored dir).run 0 d) := by
  refine (quiet.says_run _ (anchorMember dir) (descends_anchored dir)
    (fun _ _ => rfl) fun entry _ place => quiet_visit_anchored dir entry.2 place).mono ?_
  rintro _ ⟨members, hmembers, rfl⟩
  obtain ⟨hwf, hnull⟩ := hmembers.clean
  refine ⟨rebuilt_anchorMember hmembers, ?_⟩
  unfold anchorMember
  split
  · exact ⟨Dict.wellFormed_set hwf, Dict.nullFree_set hwf hnull⟩
  · exact ⟨hwf, hnull⟩

/-! ## Expanded trees -/

theorem quiet_loadImport (place : Place) (target : Value) :
    Quiet setting (fun found => ∃ under, found = some under ∧ Imported setting target under ∧
      under.WellFormed ∧ under.NullFree) (loadImport place target) := by
  unfold loadImport
  cases htext : target.asString? with
  | none => exact quiet_addError_pure place _ _ none
  | some text =>
    refine quiet_read_bind ((quiet_of_noting (noting_resolveFile _ _)).bind_always
      (always_resolveFile _ _) fun found hfound => ?_)
    cases found with
    | error e => exact quiet_addError_pure place _ _ none
    | ok path =>
      simp only [pure_bind, FileView.source_pair]
      cases hsource : setting.files.source path with
      | error e => exact quiet_addError_pure place _ _ none
      | ok source =>
        dsimp only [Except.map]
        rw [map_eq_pure_bind]
        refine (quiet_run_anchored _ source).bind_pure fun under hunder _ => ?_
        exact ⟨under, rfl, ⟨text, path, source, htext, hfound.symm, hsource, hunder.1⟩, hunder.2⟩

/-- A dictionary that a name is looked for in keeps its entries when another one is put under
it. -/
theorem get?_layer {hs : Handles} {under : Dict Value} {name : String} (h : d.WellFormed)
    (hd : d.NullFree) (hname : name ≠ Reserved.values) :
    (layer hs under d).get? name = (d.get? name).or (under.get? name) := by
  rw [← Dict.get?_merged h hd]
  unfold layer
  dsimp only
  split
  · exact Dict.get?_insert.trans (if_neg hname)
  · rfl

theorem retains_layer {hs : Handles} {under : Dict Value} (h : d.WellFormed) (hd : d.NullFree) :
    Retains [Reserved.values] d (layer hs under d) := by
  intro name v hname hv
  rw [get?_layer h hd (by simpa using hname), hv]
  rfl

theorem clean_layer {hs : Handles} {under : Dict Value} (h : under.WellFormed)
    (hunder : under.NullFree) :
    (layer hs under d).WellFormed ∧ (layer hs under d).NullFree := by
  have hwf : (Dict.merged under d).WellFormed := Dict.wellFormed_extend h
  have hnull : (Dict.merged under d).NullFree := Dict.nullFree_extend h hunder
  unfold layer
  dsimp only
  split
  · exact ⟨Dict.wellFormed_set hwf, Dict.nullFree_set hwf hnull⟩
  · exact ⟨hwf, hnull⟩

theorem Retains.trans {but but' : List String} {d' d'' : Dict Value} (h : Retains but d d')
    (h' : Retains but' d' d'') : Retains (but ++ but') d d'' := by
  intro name v hname hv
  rw [List.mem_append, not_or] at hname
  exact h' name v hname.2 (h name v hname.1 hv)

theorem retains_erase {name : String} (h : d.WellFormed) : Retains [name] d (d.erase name) := by
  intro other v hother hv
  rw [Dict.get?_erase h, if_neg (by simpa using hother)]
  exact hv

theorem nullFree_erase {name : String} (hd : d.NullFree) : (d.erase name).NullFree :=
  fun entry hentry => hd entry (Dict.subperm_erase.subset hentry)

/-- **A dictionary is laid over one dictionary for each target**, and keeps its entries. -/
theorem quiet_layers (place : Place) (targets : List Value) (d : Dict Value) :
    Quiet setting (fun out => Layered setting targets d out ∧ (d.WellFormed → d.NullFree →
        (out.WellFormed ∧ out.NullFree) ∧ Retains [Reserved.values] d out))
      (targets.foldlM (fun local_ target => do
        match ← loadImport place target with
        | some imported => return layer (← handles) imported local_
        | none => return local_) d) := by
  induction targets generalizing d with
  | nil => exact quiet_pure ⟨.nil, fun h hd => ⟨⟨h, hd⟩, fun _ _ _ hv => hv⟩⟩
  | cons target targets ih =>
    have hstep : Quiet setting (fun next => ∃ hs under, Imported setting target under ∧
        under.WellFormed ∧ under.NullFree ∧ next = layer hs under d) (do
          match ← loadImport place target with
          | some imported => return layer (← handles) imported d
          | none => return d) := by
      refine (quiet_loadImport place target).bind fun found => ?_
      cases found with
      | none => exact quiet_pure fun ⟨_, hnone, _⟩ => nomatch hnone
      | some imported =>
        refine quiet_handles_bind fun hs => quiet_pure ?_
        rintro ⟨under, hunder, himported, hwf, hnull⟩
        obtain rfl := Option.some.inj hunder
        exact ⟨hs, imported, himported, hwf, hnull, rfl⟩
    rw [List.foldlM_cons]
    refine hstep.bind fun next => (ih next).mono ?_
    rintro out ⟨hlayered, hclean⟩ ⟨hs, under, himported, hwf, hnull, rfl⟩
    refine ⟨.cons hs himported hlayered, fun h hd => ?_⟩
    obtain ⟨hwf', hnull'⟩ : (layer hs under d).WellFormed ∧ (layer hs under d).NullFree :=
      clean_layer hwf hnull
    obtain ⟨hout, hretains⟩ := hclean hwf' hnull'
    refine ⟨hout, fun name v hname hv => ?_⟩
    exact hretains name v hname (retains_layer h hd name v hname hv)

theorem quiet_applyImports (place : Place) (d : Dict Value) :
    Quiet setting (fun out => OverImports setting d out ∧ (d.WellFormed → d.NullFree →
        (out.WellFormed ∧ out.NullFree) ∧ Retains [Reserved.values, Reserved.import_] d out))
      (applyImports place d) := by
  unfold applyImports
  cases htarget : d.get? Reserved.import_ with
  | none => exact quiet_pure ⟨.none htarget, fun h hd => ⟨⟨h, hd⟩, fun _ _ _ hv => hv⟩⟩
  | some target =>
    refine (quiet_layers place (importTargets target) _).mono ?_
    rintro out ⟨hlayered, hclean⟩
    refine ⟨.some htarget hlayered, fun h hd => ?_⟩
    obtain ⟨hout, hretains⟩ := hclean (Dict.wellFormed_erase h) (nullFree_erase hd)
    refine ⟨hout, fun name v hname hv => ?_⟩
    exact ((retains_erase h).trans hretains) name v (by simpa [and_comm] using hname) hv

theorem quiet_applyTemplate (place : Place) (d : Dict Value) :
    Quiet setting (fun out => OverTemplate place.scopes d out ∧ (d.WellFormed → d.NullFree →
        Retains [Reserved.values, Reserved.template] d out)) (applyTemplate place d) := by
  unfold applyTemplate
  cases htemplate : d.get? Reserved.template with
  | none => exact quiet_pure ⟨.none htemplate, fun _ _ _ _ _ hv => hv⟩
  | some template =>
    dsimp only
    cases hname : template.asString? with
    | none => exact quiet_addError_pure place _ _ _
    | some name =>
      have htext : template = .string name := by
        cases template with
        | string text => exact congrArg Value.string (Option.some.inj hname)
        | _ => cases hname
      refine quiet_handles_bind fun hs => ?_
      cases hfound : findTemplate hs place (d.erase Reserved.template) name with
      | none => exact quiet_addError_pure place _ _ _
      | some under =>
        refine quiet_pure ⟨.some hs place (htext ▸ htemplate) rfl hfound, fun h hd => ?_⟩
        intro other v hother hv
        have herased : Retains [Reserved.template] d (d.erase Reserved.template) := retains_erase h
        have hlayered : Retains [Reserved.values] (d.erase Reserved.template)
            (layer hs under (d.erase Reserved.template)) :=
          retains_layer (Dict.wellFormed_erase h) (nullFree_erase hd)
        exact (herased.trans hlayered) other v (by simpa [and_comm] using hother) hv

/-- **A dictionary is laid over its imports and its template**, or a diagnostic says which of them
is missing. -/
theorem quiet_expandDict (place : Place) (hd : hasDirective d = true) :
    Quiet setting (Over setting place.scopes d) (expandDict place d) := by
  refine (quiet_applyImports place d).bind fun lower => (quiet_applyTemplate place lower).mono ?_
  rintro d' ⟨htemplate, hretains'⟩ ⟨himports, hclean⟩
  refine ⟨hd, ⟨lower, himports, htemplate⟩, fun h hnull name v hname hv => ?_⟩
  obtain ⟨⟨hwf, hnull'⟩, hretains⟩ := hclean h hnull
  simp only [List.mem_cons, List.not_mem_nil, or_false, not_or] at hname
  refine hretains' hwf hnull' name v (by simp [hname]) (hretains name v (by simp [hname]) hv)

/-- **The visits of an expansion.** -/
theorem quiet_expansion (v : Value) (place : Place) :
    Quiet setting (Survives (expanding setting) place.scopes v) (expansion v place) := by
  induction v, place using induct_expansion with
  | dict d place ih ihdeeper =>
    cases hd : hasDirective d with
    | false =>
      rw [expansion_members hd]
      refine quiet_handles_bind fun hs => Quiet.bind_pure
        (quiet.says_runMembers_zero fun entry hentry worker => ?_) fun out hout =>
          survives_some (rebuilt_of_collects ⟨hd, hs, rfl⟩ hout)
      exact ih entry (openMembers_subset hentry)
        (((place.inScope (ownValues hs d)).member entry.1).withWorker worker) rfl
    | true =>
      rcases Nat.lt_or_ge place.nesting revisitLimit with hlt | hge
      · rw [expansion_directive hd hlt]
        refine (quiet_expandDict place hd).bind fun d' => (ihdeeper hlt (.dict d')).mono ?_
        rintro _ ⟨w, rfl, hw⟩ hover
        exact survives_some (.made (.over hover) hw rfl)
      · rw [expansion_capped hd hge]
        exact quiet_addError_pure place _ _ _
  | list items place ih =>
    rw [expansion_list]
    exact Quiet.bind_pure (quiet.says_runElements_zero 0 fun element helement =>
      ih element.1 helement (place.element element.2) rfl) fun out hout =>
        survives_some (rebuilt_of_lists hout)
  | string text place ihdeeper =>
    cases hvalue : Reserved.afterMark? Reserved.valueMark text with
    | some path =>
      rcases Nat.lt_or_ge place.nesting revisitLimit with hlt | hge
      · rw [expansion_value hvalue hlt]
        refine quiet_handles_bind fun hs => ?_
        cases hfound : place.lookup hs path with
        | none => exact quiet_addError_pure place _ _ _
        | some v =>
          refine (ihdeeper hlt v).mono ?_
          rintro _ ⟨w, rfl, hw⟩
          exact survives_some (.made (.value hs place hvalue rfl hfound) hw rfl)
      · rw [expansion_valueCapped hvalue hge]
        exact quiet_addError_pure place _ _ _
    | none =>
      cases href : Reserved.afterMark? Reserved.refMark text with
      | some name =>
        rw [expansion_reference hvalue href]
        refine (quiet_reference name).bind_pure fun h _ => survives_some (.single ?_)
        refine ⟨trivial, hvalue, ?_⟩
        simp only [Value.asString?, Option.bind_some, href]
        exact ⟨h, rfl⟩
      | none =>
        rw [expansion_text hvalue href]
        refine quiet_pure (survives_some (.single ⟨trivial, hvalue, ?_⟩))
        simp only [Value.asString?, Option.bind_some, href]
  | leaf v place hdict hlist hstring =>
    rw [expansion_leaf hdict hlist hstring]
    have htext : v.asString? = none := by
      cases v with
      | string text => exact absurd rfl (hstring text)
      | _ => rfl
    refine quiet_pure (survives_some (.single ⟨Value.isSingle_of_ne hdict hlist, ?_⟩))
    rw [htext]
    exact ⟨rfl, rfl⟩

/-- **Expanded trees.** -/
theorem quiet_run_expanded (d : Dict Value) :
    Quiet setting (fun out => Rebuilt (expanding setting) [] (.dict d) (.dict out))
      (expanded.run revisitLimit d) := by
  unfold Rewrite.run
  refine quiet_nextWorker.andThen fun worker => ?_
  have hleaves : Always setting (Leaves (.dict d)) (expansion (.dict d) (Place.root worker)) :=
    (gives_expansion setting (.dict d) (Place.root worker)).always fun _ => trivial
  have hquiet : Quiet setting (Survives (expanding setting) [] (.dict d))
      (expansion (.dict d) (Place.root worker)) := quiet_expansion (.dict d) (Place.root worker)
  refine hquiet.bind_always hleaves fun result hresult => ?_
  cases result with
  | none => exact quiet_pure fun ⟨_, hnone, _⟩ => nomatch hnone
  | some v =>
    obtain ⟨out, rfl⟩ := (hresult v rfl).2.2 d rfl
    refine quiet_pure ?_
    rintro ⟨w, hw, hrebuilt⟩
    obtain rfl := Option.some.inj hw
    exact hrebuilt

/-! ## Live trees -/

section Objects

variable [ObjectClass σ]

theorem descends_instantiated : (instantiated : Rewrite σ).Descends instantiate where
  onDict _ _ := rfl
  onItems _ _ := rfl

theorem descends_finished :
    (finished : Rewrite σ).Descends fun _ out => pure (some (.dict out)) where
  onDict _ _ := rfl
  onItems _ _ := rfl

theorem quiet_loadObject (place : Place) (fresh : σ) (members : Dict Value) :
    Quiet setting (fun result => ∃ ref, result = some (.object ref))
      (loadObject place fresh members) := by
  unfold loadObject
  refine quiet_read_bind ((quiet_perform place _).andThen fun loaded => ?_)
  cases loaded with
  | error e => exact quiet_addError_pure place _ _ none
  | ok object =>
    refine (quiet_withStore _).andThen fun ref => ?_
    dsimp only
    split
    · exact (quiet_publish _ _).andThen fun _ => quiet_pure ⟨ref, rfl⟩
    · exact quiet_pure ⟨ref, rfl⟩

/-- **A dictionary is kept, dropped with a diagnostic, or loaded** as an object of its type. -/
theorem instantiate_cases {P : Action σ (Option Value) → Prop} {members : Dict Value}
    (hread : ∀ f, P (f setting) → P (read >>= f)) (hkept : P (pure (some (.dict members))))
    (hdropped : ∀ kind message, P (addError place kind message >>= fun _ => pure none))
    (hload : ∀ typeName fresh, members.get? Reserved.type = some (.string typeName) →
      setting.registry.create? typeName = some fresh → P (loadObject place fresh members)) :
    P (instantiate place members) := by
  unfold instantiate
  split
  · exact hkept
  · split
    · exact hkept
    · next typeName htype =>
      refine hread _ ?_
      split
      · next fresh hfresh => exact hload typeName fresh htype hfresh
      · exact hdropped _ _
    · exact hdropped _ _

theorem quiet_instantiate (place : Place) {out : Dict Value} :
    Quiet setting (fun result => Rebuilt instantiating [] (.dict d) (.dict out) →
      Survives instantiating [] (.dict d) result) (instantiate place out) := by
  refine instantiate_cases (fun _ h => quiet_read_bind h) (quiet_pure survives_some)
    (fun kind message => quiet_addError_pure place kind message none)
    fun typeName fresh htype _ => (quiet_loadObject place fresh out).mono ?_
  rintro _ ⟨ref, rfl⟩ hrebuilt
  exact survives_some (.made rfl hrebuilt ⟨out, typeName, ref, rfl, htype, rfl⟩)

theorem quiet_visit_instantiated (v : Value) (place : Place) :
    Quiet setting (Survives instantiating [] v)
      ((instantiated : Rewrite σ).visitWithin 0 v place) := by
  rw [Rewrite.visitWithin_eq]
  refine quiet.says_visitUsing (fun _ => True) _ descends_instantiated
    (fun _ _ _ _ => trivial) (fun _ _ _ _ => trivial) (fun place d out _ => ?_)
    (fun items out _ hout => survives_some (rebuilt_of_lists hout))
    (fun v place _ hdict hlist => ?_) v trivial place
  · exact (quiet_instantiate place).mono fun result hresult hout =>
      hresult (rebuilt_of_all rfl rfl hout)
  · exact quiet_pure (survives_some (.single ⟨Value.isSingle_of_ne hdict hlist, rfl⟩))

/-- **Trees whose dictionaries with a type became objects.** -/
theorem quiet_run_instantiated (d : Dict Value) :
    Quiet setting (fun out => Rebuilt instantiating [] (.dict d) (.dict out))
      ((instantiated : Rewrite σ).run 0 d) := by
  refine (quiet.says_run _ id descends_instantiated (fun _ _ => rfl)
    fun entry _ place => quiet_visit_instantiated entry.2 place).mono ?_
  rintro _ ⟨members, hmembers, rfl⟩
  exact rebuilt_of_all rfl rfl hmembers

/-! ### Finished objects -/

theorem quiet_finishAlone (place : Place) (ref : ObjectRef) :
    Quiet setting (fun _ => True) (finishAlone place ref : Action σ Unit) := by
  unfold finishAlone
  refine quiet_store_bind fun s => ?_
  split
  · split
    · exact quiet_modifyGet fun _ => rfl
    · exact (quiet_addError place _ _).mono fun _ h => h.elim
    · exact quiet_crash place _
  · exact quiet_pure trivial

omit [ObjectClass σ] in
theorem quiet_withTable {α : Type} (f : FinishTable → α × FinishTable) :
    Quiet setting (fun _ => True) (withTable f : Action σ α) := quiet_modifyGet fun _ => rfl

omit [ObjectClass σ] in
theorem quiet_visitDependencies {visit : ObjectRef → Action σ Unit}
    (hvisit : ∀ ref, Quiet setting (fun _ => True) (visit ref)) (dependencies : List Value) :
    Quiet setting (fun _ => True) (visitDependencies visit dependencies) := by
  induction dependencies with
  | nil => exact quiet_pure trivial
  | cons dependency rest ih =>
    refine Quiet.andThen (show Quiet _ (fun _ => True) _ from
      quiet_handles_bind fun hs => ?_) fun _ => ih
    split
    · exact hvisit _
    · exact quiet_pure trivial

theorem quiet_finishObject (place : Place) (levels : Nat) (ref : ObjectRef) :
    Quiet setting (fun _ => True) (finishObject place levels ref : Action σ Unit) := by
  induction levels generalizing ref with
  | zero => exact quiet_pure trivial
  | succ levels ih =>
    unfold finishObject
    refine quiet_store_bind fun s => ?_
    split
    · exact quiet_pure trivial
    · next dependencies _ =>
      refine (quiet_withTable _).andThen fun verdict => ?_
      cases verdict with
      | finished => exact quiet_pure trivial
      | cycle => exact (quiet_record _).mono fun _ h => h.elim
      | wait => exact quiet_withTable _
      | begun =>
        refine Quiet.andFinally ?_ (quiet_withTable _)
        exact (quiet_visitDependencies ih dependencies).andThen fun _ => quiet_finishAlone place ref

theorem quiet_visit_finished (v : Value) (place : Place) :
    Quiet setting (Survives Rules.plain [] v)
      ((finished : Rewrite σ).visitWithin 0 v place) := by
  rw [Rewrite.visitWithin_eq]
  refine quiet.says_visitUsing (fun _ => True) _ descends_finished
    (fun _ _ _ _ => trivial) (fun _ _ _ _ => trivial)
    (fun place d out _ => quiet_pure fun hout => survives_some (rebuilt_of_all rfl rfl hout))
    (fun items out _ hout => survives_some (rebuilt_of_lists hout))
    (fun v place _ hdict hlist => ?_) v trivial place
  have hkept : Survives Rules.plain [] v (some v) :=
    survives_some (.single ⟨Value.isSingle_of_ne hdict hlist, rfl⟩)
  cases v with
  | object ref =>
    unfold Rewrite.visitOther
    simp only [finished, bind_assoc, pure_bind]
    exact quiet_store_bind fun s =>
      (quiet_finishObject place _ ref).andThen fun _ => quiet_pure hkept
  | _ => exact quiet_pure hkept

/-- **Trees whose objects were finished.** -/
theorem quiet_run_finished (d : Dict Value) :
    Quiet setting (fun out => Rebuilt Rules.plain [] (.dict d) (.dict out))
      ((finished : Rewrite σ).run 0 d) := by
  refine (quiet.says_run _ id descends_finished (fun _ _ => rfl)
    fun entry _ place => quiet_visit_finished entry.2 place).mono ?_
  rintro _ ⟨members, hmembers, rfl⟩
  exact rebuilt_of_all rfl rfl hmembers

/-! ### Entries that objects contribute -/

omit [ObjectClass σ] in
theorem retains_set {name : String} (h : d.contains name = false) (v : Value) :
    Retains [] d (d.set name v) := by
  intro other w _ hw
  have hname : name ∉ Dict.names d.entries := by
    rw [← Dict.contains_iff, h]
    exact Bool.noConfusion
  by_cases hv : v = .null
  · rw [hv]
    show (d.erase name).get? other = some w
    rw [Dict.erase_of_notMem hname]
    exact hw
  · have hne : other ≠ name := by
      rintro rfl
      rw [Dict.contains, hw] at h
      cases h
    rw [Dict.set_of_ne_null hv, Dict.get?_insert, if_neg hne]
    exact hw

omit [ObjectClass σ] in
theorem quiet_addSibling (owner : String) (root : Dict Value) (entry : String × Value) :
    Quiet setting (Retains [] root) (addSibling owner root entry : Action σ _) := by
  unfold addSibling
  split
  · exact (quiet_record _).bind_pure fun _ h => h.elim
  · next hfree =>
    exact (quiet_publish _ _).andThen fun _ =>
      quiet_pure (retains_set (Bool.not_eq_true _ ▸ hfree) entry.2)

theorem quiet_addSiblings (root : Dict Value) (entry : String × Value) :
    Quiet setting (Retains [] root) (addSiblings root entry : Action σ _) := by
  unfold addSiblings
  split
  · next ref _ =>
    have hoffer : Quiet setting (fun _ => True) (offerOf entry.1 ref : Action σ _) := by
      unfold offerOf
      refine quiet_store_bind fun s => ?_
      split
      · exact quiet_pure trivial
      · split
        · exact quiet_pure trivial
        · exact quiet_throw _
    refine hoffer.andThen fun offer => ?_
    split
    · exact quiet_foldlM (R := Retains []) (fun _ _ _ _ h => h) (fun _ _ _ => Retains.trans) _
        (fun root offered _ => quiet_addSibling entry.1 root offered) root
    · exact quiet_pure fun _ _ _ h => h
  · exact quiet_pure fun _ _ _ h => h

/-- **Roots that objects contributed entries to.** -/
theorem quiet_extended (root : Dict Value) :
    Quiet setting (fun out => Rebuilt extending [] (.dict root) (.dict out))
      (extended root : Action σ _) := by
  refine (quiet_foldlM (R := Retains []) (fun _ _ _ _ h => h) (fun _ _ _ => Retains.trans) _
    (fun root entry _ => quiet_addSiblings root entry) root).mono fun out hout => ?_
  refine .dict none rfl fun name v hv hname => .single ?_
  rw [hout name v hname hv]
  rfl

end Objects

/-! ## Saved trees -/

section Saved

variable [ObjectClass σ] {s : Store σ} {w : Value}

/-- Every reference in a value, and in what objects of the store are saved as, is to an object that
is there. -/
structure Complete (s : Store σ) (v : Value) : Prop where
  inside : ∀ ref, (Value.object ref).Within v → (s.object? ref).isSome = true
  saved : ∀ ref object d, s.object? ref = some object → ObjectClass.saveToCache object = .ok d →
    ∀ inner, (Value.object inner).Within (.dict d) → (s.object? inner).isSome = true

theorem Complete.isPresent (h : Complete s v) : isPresent s v = true := by
  cases v with
  | object ref => exact h.inside ref .self
  | _ => rfl

theorem Complete.of_within {x : Value} (h : Complete s v)
    (hx : ∀ ref, (Value.object ref).Within x → (Value.object ref).Within v) : Complete s x :=
  ⟨fun ref href => h.inside ref (hx ref href), h.saved⟩

theorem rebuilt_ofSaved {pairs : List (String × Value × Value)} (hc : Complete s (.dict d))
    (hmembers : keptMembers s d = pairs.map (Prod.map id Prod.fst))
    (hsaved : ∀ pair ∈ pairs, Saves s pair.2.1 pair.2.2)
    (h : ∀ pair ∈ pairs, Rebuilt (saving s) [] pair.2.1 pair.2.2) :
    Rebuilt (saving s) [] (.dict d) (.dict (Dict.ofValues (pairs.map (Prod.map id Prod.snd)))) := by
  refine .dict none rfl fun name v hv _ => ?_
  have hnodup : (Dict.names (Dict.inKeyOrder d.entries)).Nodup :=
    Dict.pairwise_inKeyOrder.imp fun hlt => ne_of_lt hlt
  have hentry : (name, v) ∈ Dict.inKeyOrder d.entries := by
    rw [← Dict.lookup_eq_some_iff_mem hnodup, Dict.lookup_inKeyOrder]
    exact hv
  rw [Dict.get?, entries_ofSaved hmembers hsaved]
  by_cases hnull : v = .null
  · have hnone : name ∉ Dict.names (pairs.map (Prod.map id Prod.snd)) := by
      rw [names_saved hmembers]
      intro hname
      obtain ⟨entry, hkept, rfl⟩ := List.mem_map.mp hname
      obtain ⟨hother, hcheck⟩ := List.mem_filter.mp hkept
      have hsame : entry = (entry.1, v) := List.inj_on_of_nodup_map hnodup hother hentry rfl
      rw [hsame, hnull] at hcheck
      cases hcheck
    rw [Dict.lookup_eq_none_iff_names.mpr hnone, hnull]
    exact .single ⟨trivial, rfl⟩
  · have hpresent : Complete s v := hc.of_within fun ref href =>
      .member (Dict.inKeyOrder_subset hentry) href
    have hkept : (name, v) ∈ keptMembers s d := by
      refine List.mem_filter.mpr ⟨hentry, ?_⟩
      rw [Dict.isNull_eq_false_iff.mpr hnull, hpresent.isPresent]
      rfl
    rw [hmembers] at hkept
    obtain ⟨pair, hpair, heq⟩ := List.mem_map.mp hkept
    obtain ⟨rfl, rfl⟩ := Prod.mk.inj heq
    have hfound : (pairs.map (Prod.map id Prod.snd)).lookup pair.1 = some pair.2.2 :=
      (Dict.lookup_eq_some_iff_mem ((pairwise_saved hmembers).imp fun hlt => ne_of_lt hlt)).mpr
        (List.mem_map_of_mem (f := Prod.map id Prod.snd) hpair)
    rw [show (id pair.1) = pair.1 from rfl, hfound]
    exact h pair hpair

/-- **A saved tree is the tree, rebuilt**, where no reference leads nowhere. -/
theorem Saves.rebuilt (h : Saves s v w) (hc : Complete s v) : Rebuilt (saving s) [] v w := by
  induction h with
  | leaf h => exact .single ⟨h, rfl⟩
  | dict pairs members saved ih =>
    refine rebuilt_ofSaved hc members saved fun pair hpair => ih pair hpair ?_
    exact hc.of_within fun ref href => .member (mem_of_kept members hpair).1 href
  | @list items pairs kept saved ih =>
    have hall : items.filter (Compile.isPresent s) = items :=
      List.filter_eq_self.mpr fun item hitem =>
        (hc.of_within fun ref href => .item hitem href).isPresent
    have hitems : items = pairs.map Prod.fst := hall.symm.trans kept
    rw [hitems]
    refine .list pairs fun pair hpair => ih pair hpair (hc.of_within fun ref href => ?_)
    exact .item (hitems ▸ List.mem_map_of_mem hpair) href
  | @object ref object d payload pairs found saves members saved packed ih =>
    have hd : Complete s (.dict d) := ⟨hc.saved ref object d found saves, hc.saved⟩
    refine .made ⟨ref, object, d, rfl, found, saves, rfl⟩
      (rebuilt_ofSaved hd members saved fun pair hpair => ih pair hpair ?_)
      ⟨ref, _, payload, rfl, rfl, packed, rfl⟩
    exact hd.of_within fun inner hinner => .member (mem_of_kept members hpair).1 hinner

theorem keeps_saving (s : Store σ) (d : Dict Value) :
    Keeps s (fun out => Saves s (.dict d) (.dict out)) (Stage.saving.run d) :=
  keeps_store_bind (keeps_run_saved _ d)

end Saved

/-! ## Trees without flags -/

theorem rebuilt_membersWithoutFlags (h : (Value.dict d).WellFormed)
    (hmembers : ∀ entry ∈ d.entries, Rebuilt stripping [] entry.2 (withoutFlags entry.2)) :
    Rebuilt stripping [] (.dict d) (.dict (Dict.ofValues (membersWithoutFlags d.entries))) := by
  refine .dict none rfl fun name v hv hname => ?_
  have hflag : name ≠ Reserved.compress := by simpa [stripping] using hname
  rw [get?_withoutFlags h.root h.nullFree, if_neg hflag, hv]
  exact hmembers (name, v) ((Dict.get?_eq_some_iff h.root).mp hv)

/-- **A tree without its flags is the tree, rebuilt.** -/
theorem rebuilt_withoutFlags (v : Value) (h : v.WellFormed) :
    Rebuilt stripping [] v (withoutFlags v) := by
  induction v using Value.induct with
  | dict d ih =>
    rw [withoutFlags_dict]
    exact rebuilt_membersWithoutFlags h fun entry hentry => ih entry hentry (h.member hentry)
  | list items ih =>
    rw [withoutFlags, itemsWithoutFlags_eq]
    have hfst : (items.map fun item => (item, withoutFlags item)).map Prod.fst = items :=
      (List.map_map ..).trans (List.map_id items)
    have hsnd : (items.map fun item => (item, withoutFlags item)).map Prod.snd =
        items.map withoutFlags := List.map_map ..
    rw [← hsnd]
    nth_rewrite 1 [← hfst]
    refine .list _ fun pair hpair => ?_
    obtain ⟨item, hitem, rfl⟩ := List.mem_map.mp hpair
    exact ih item hitem (h.item hitem)
  | _ => exact .single ⟨trivial, rfl⟩

theorem rebuilt_stripFlags (hs : Handles) (h : (Value.dict d).WellFormed) :
    Rebuilt stripping [] (.dict d) (.dict (stripFlags hs d).1) :=
  rebuilt_membersWithoutFlags h fun entry hentry =>
    rebuilt_withoutFlags entry.2 (h.member hentry)

/-! ## Every step -/

/-- What a tree has to be for a step: no reference in a tree that is saved leads nowhere, and
a tree that flags are taken out of names no entry twice. -/
def Stage.Fits [ObjectClass σ] (s : Store σ) (d : Dict Value) : Stage → Prop
  | .saving => Complete s (.dict d)
  | .stripping => (Value.dict d).WellFormed
  | _ => True

/-- **No step loses a part of a tree in silence.** It takes no diagnostic away, and where it adds
none, it gives the tree rebuilt by its rules: every list as long and in the same order, every
dictionary with all its entries but for those that are used up and those that became null. -/
theorem Stage.rebuilds [ObjectClass σ] (stage : Stage) {p q : Progress σ} {d out : Dict Value}
    (hfits : stage.Fits p.store d) (hrun : (stage.run d).run setting p = (.ok out, q)) :
    p.errors.size ≤ q.errors.size ∧ (q.errors.size = p.errors.size →
      Rebuilt (stage.rules setting p.store) [] (.dict d) (.dict out)) := by
  have hquiet {post : Dict Value → Prop} (h : Quiet setting post (stage.run d)) :
      p.errors.size ≤ q.errors.size ∧ (q.errors.size = p.errors.size → post out) :=
    (h p _ q hrun).imp_right fun hpost => hpost out rfl
  cases stage with
  | anchoring dir => exact hquiet ((quiet_run_anchored dir d).mono fun _ h => h.1)
  | expanding => exact hquiet (quiet_run_expanded d)
  | instantiating => exact hquiet (quiet_run_instantiated d)
  | finishing => exact hquiet (quiet_run_finished d)
  | extending => exact hquiet (quiet_extended d)
  | saving =>
    obtain ⟨-, hgrows, hsaves⟩ := keeps_saving p.store d setting p out q rfl hrun
    exact ⟨hgrows, fun hsize => (hsaves hsize).rebuilt hfits⟩
  | stripping =>
    have hstrip : Quiet setting (fun out => Rebuilt Compile.stripping [] (.dict d) (.dict out))
        (Stage.stripping.run d) :=
      quiet_handles_bind fun hs => quiet_pure (rebuilt_stripFlags hs hfits)
    exact hquiet hstrip

/-! ### A list with a probe -/

/-- A store with one probe. -/
def probed : Store Item := (Store.empty.addObject Probe.typeName (.probe .fresh)).2

theorem object_probed {ref : ObjectRef} {item : Item} (h : probed.object? ref = some item) :
    item = .probe .fresh := by
  obtain hid | hid := Nat.eq_zero_or_pos ref.id
  · rw [Store.object?, hid] at h
    exact (Option.some.inj h).symm
  · have hout : probed.objects[ref.id]? = none := Array.getElem?_eq_none hid
    rw [Store.object?, hout] at h
    cases h

/-- A tree with the probe in a list. -/
def probedTree : Dict Value :=
  Dict.ofValues [("items", .list [.object ⟨0, Probe.typeName⟩, .bool true])]

theorem complete_probed : Complete probed (.dict probedTree) where
  inside ref href := by
    have hentries : probedTree.entries =
        [("items", .list [.object ⟨0, Probe.typeName⟩, .bool true])] := rfl
    obtain _ | ⟨hentry, hin⟩ := href
    rw [hentries, List.mem_singleton] at hentry
    subst hentry
    obtain _ | _ | ⟨hitem, hin⟩ := hin
    simp only [List.mem_cons, List.not_mem_nil, or_false] at hitem
    rcases hitem with rfl | rfl <;> cases hin
    rfl
  saved ref object d hfound hsaves inner hinner := by
    obtain rfl := object_probed hfound
    obtain rfl : Probe.fresh.save = d := Except.ok.inj hsaves
    have hentries : Probe.fresh.save.entries = [("source", .dict ∅)] := rfl
    obtain _ | ⟨hentry, hin⟩ := hinner
    rw [hentries, List.mem_singleton] at hentry
    subst hentry
    obtain _ | ⟨hnone, -⟩ := hin
    cases hnone

/-- The probe is saved without a diagnostic, and its list is rebuilt. -/
theorem Stage.rebuilds_probed : ∃ out q,
    (Stage.saving.run probedTree).run (Compiler.bare.settingIn ⟨"/"⟩) (.initial probed) =
      (.ok out, q) ∧
    q.errors.size = 0 ∧ Rebuilt (Compile.saving probed) [] (.dict probedTree) (.dict out) := by
  have hcheck : (((Stage.saving.run probedTree).run (Compiler.bare.settingIn ⟨"/"⟩)
      (.initial probed)).1.isOk && ((Stage.saving.run probedTree).run
        (Compiler.bare.settingIn ⟨"/"⟩) (.initial probed)).2.errors.size == 0) = true := by
    decide +kernel
  cases hrun : (Stage.saving.run probedTree).run (Compiler.bare.settingIn ⟨"/"⟩)
      (.initial probed) with
  | mk r q =>
    rw [hrun] at hcheck
    cases r with
    | error crash => cases hcheck
    | ok out =>
      have hsize : q.errors.size = 0 := by simpa [Except.isOk, Except.toBool] using hcheck
      have hfits : Stage.saving.Fits (Progress.initial probed).store probedTree := complete_probed
      exact ⟨out, q, rfl, hsize, (Stage.rebuilds .saving hfits hrun).2 hsize⟩

end Compile

end ResourceTree
