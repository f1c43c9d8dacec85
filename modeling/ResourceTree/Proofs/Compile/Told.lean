import ResourceTree.Proofs.Compile.Rebuilt
import ResourceTree.Proofs.Finish.Alone
import ResourceTree.Proofs.Walk.Reports

/-!
# Told — what the steps of a compile say, and where

Each step of a compile finds something wrong with nodes that it meets, and what it says points to
the path of the node, with two exceptions: a file that is missing in an imported source, and an
entry that an object offers. What is wrong with an object may be wrong with one that it depends on.

* `Store.Depends`, `ImportFails`, `Imports`, `Rest`: what a step can find;
* `Stage.Stands`, `Stage.Meets`: the nodes that a step meets;
* **`Stage.Finds`**, **`Stage.Points`**, `Stage.Tells`: what it says of them, and where;
* `Points.path_eq`: where nothing is imported and nothing offered, at the path of the node;
* `reporting_anchored`, **`reporting_expanded`**, `reporting_instantiated`: the first steps.
-/

namespace ResourceTree

open ResourceTree.Action

variable {σ : Type} [ObjectClass σ]

/-- An object is among those that another one depends on directly. -/
def Store.Depends (s : Store σ) (a b : ObjectRef) : Prop :=
  ∃ dependencies, s.graph a.id = some dependencies ∧ b ∈ dependencies

namespace Compile

/-! ## What steps tell -/

/-- The source of an import is not found, not read, or no source. -/
def ImportFails (setting : Setting σ) (text : String) (e : ResourceError) : Prop :=
  setting.files.canonicalize (setting.basePath.join (namedFile text)) = .error e ∨
    ∃ file, setting.files.canonicalize (setting.basePath.join (namedFile text)) = .ok file ∧
      setting.files.source file = .error e

/-- The target is among those that a dictionary imports. -/
def Imports (d : Dict Value) (target : Value) : Prop :=
  ∃ targets, d.get? Reserved.import_ = some targets ∧ target ∈ importTargets targets

/-- **Objects rest**: handles and objects are as they are in a store, but for objects that are
finished, or among `but`. -/
structure Rest (s : Store σ) (but : List Nat) (p : Progress σ) : Prop where
  handles : p.store.handles = s.handles
  objects : ∀ id, id ∉ p.finishing.finished → id ∉ but → p.store.objects[id]? = s.objects[id]?

namespace Stage

/-- **What a step visits in the stead of a node**, at the path of the node: a named value, what a
dictionary becomes over its imports and its template, the saved members of an object. -/
inductive Stands (setting : Setting σ) (s : Store σ) : Stage → List Step → Value → Value → Prop
    where
  | value {text name : String} {v : Value} (hs : Handles) (place : Place)
      (marked : Reserved.afterMark? Reserved.valueMark text = some name)
      (found : place.lookup hs name = some v) :
      Stands setting s .expanding place.path (.string text) v
  | over {d d' : Dict Value} {p q : Progress σ} (place : Place) (directive : hasDirective d = true)
      (run : (expandDict place d).run setting p = (.ok d', q)) :
      Stands setting s .expanding place.path (.dict d) (.dict d')
  | saved {path : List Step} {ref : ObjectRef} {object : σ} {members : Dict Value}
      (found : s.object? ref = some object)
      (saves : ObjectClass.saveToCache object = .ok members) :
      Stands setting s .saving path (.object ref) (.dict members)

/-- The nodes that a step meets, from a tree on. -/
abbrev Meets (setting : Setting σ) (s : Store σ) (stage : Stage) (tree : Dict Value) :
    List Step → Value → Prop :=
  Met (stage.Stands setting s) (.dict tree)

/-- **What a step finds wrong with a node**, as a kind and a message. What is wrong with an object
may be wrong with one that it depends on, directly or further on. -/
inductive Finds (setting : Setting σ) (s : Store σ) :
    Stage → List Step → Value → Diagnostic.Kind → String → Prop where
  | missingFile {dir : Path} {path : List Step} {text raw : String} {e : ResourceError}
      (marked : Reserved.afterMark? Reserved.fileMark text = some raw)
      (missing : setting.files.canonicalize (dir.join raw) = .error e) :
      Finds setting s (.anchoring dir) path (.string text) .resolution
        s!"missing file '{raw}': {e.message}"
  | importKind {path : List Step} {d : Dict Value} {target : Value} (imports : Imports d target)
      (noText : target.asString? = none) :
      Finds setting s .expanding path (.dict d) .resolution
        s!"import target must be a string, found {target.kind.name}"
  | importFailed {path : List Step} {d : Dict Value} {target : Value} {text : String}
      {e : ResourceError} (kind : Diagnostic.Kind) (imports : Imports d target)
      (isText : target.asString? = some text) (fails : ImportFails setting text e) :
      Finds setting s .expanding path (.dict d) kind
        s!"cannot import '{namedFile text}': {e.message}"
  | templateKind {d lower : Dict Value} {template : Value} {p q : Progress σ} (place : Place)
      (run : (applyImports place d).run setting p = (.ok lower, q))
      (named : lower.get? Reserved.template = some template)
      (noText : template.asString? = none) :
      Finds setting s .expanding place.path (.dict d) .resolution
        s!"template name must be a string, found {template.kind.name}"
  | undefinedTemplate {d lower : Dict Value} {name : String} {p q : Progress σ} (hs : Handles)
      (place : Place) (run : (applyImports place d).run setting p = (.ok lower, q))
      (named : lower.get? Reserved.template = some (.string name))
      (missing : findTemplate hs place (lower.erase Reserved.template) name = none) :
      Finds setting s .expanding place.path (.dict d) .resolution s!"undefined template '{name}'"
  | nestedDirective {path : List Step} {d : Dict Value} (directive : hasDirective d = true) :
      Finds setting s .expanding path (.dict d) .resolution directiveTooDeep
  | undefinedValue {text name : String} (hs : Handles) (place : Place)
      (marked : Reserved.afterMark? Reserved.valueMark text = some name)
      (missing : place.lookup hs name = none) :
      Finds setting s .expanding place.path (.string text) .resolution
        s!"undefined value '{name}'"
  | nestedValue {path : List Step} {text name : String}
      (marked : Reserved.afterMark? Reserved.valueMark text = some name) :
      Finds setting s .expanding path (.string text) .resolution (valueTooDeep name)
  | typeKind {d members : Dict Value} {v : Value} (place : Place)
      (made : instantiated.Makes setting place [] d members)
      (typed : members.get? Reserved.type = some v) (noText : v.asString? = none) :
      Finds setting s .instantiating place.path (.dict d) .resolution
        s!"'type' must be a string, found {v.kind.name}"
  | unknownType {d members : Dict Value} {typeName : String} (place : Place)
      (made : instantiated.Makes setting place [] d members)
      (typed : members.get? Reserved.type = some (.string typeName))
      (unknown : setting.registry.create? typeName = none) :
      Finds setting s .instantiating place.path (.dict d) .resolution
        s!"no class registered for type '{typeName}'"
  | loading {d members : Dict Value} {typeName message : String} {fresh : σ}
      {kind : Diagnostic.Kind} (place : Place)
      (made : instantiated.Makes setting place [] d members)
      (typed : members.get? Reserved.type = some (.string typeName))
      (known : setting.registry.create? typeName = some fresh)
      (load : (ObjectClass.loadFromSource fresh (Dict.merged setting.base members)).Says setting
        kind message) :
      Finds setting s .instantiating place.path (.dict d) kind message
  | unfinished {path : List Step} {ref failed : ObjectRef} {p : Progress σ} {object : σ}
      {e : ResourceError} (needs : Relation.ReflTransGen s.Depends ref failed) (rest : Rest s [] p)
      (found : p.store.object? failed = some object)
      (fails : ObjectClass.finish p.store object = .error (.error e)) :
      Finds setting s .finishing path (.object ref) .instantiation e.message
  | finishPanics {path : List Step} {ref failed : ObjectRef} {p : Progress σ} {object : σ}
      {panic : Panic} (name : String) (needs : Relation.ReflTransGen s.Depends ref failed)
      (rest : Rest s [] p) (found : p.store.object? failed = some object)
      (panics : ObjectClass.finish p.store object = .error (.panic panic)) :
      Finds setting s .finishing path (.object ref) .instantiation (panicText name)
  | selfDependency {path : List Step} {ref failed : ObjectRef}
      (needs : Relation.ReflTransGen s.Depends ref failed) :
      Finds setting s .finishing path (.object ref) .dependency
        s!"'{failed.typeName}' depends on itself"
  | offerPanics {path : List Step} {ref : ObjectRef} {object : σ} {panic : Panic} (name : String)
      (found : s.object? ref = some object)
      (panics : ObjectClass.siblings object ref = .error panic) :
      Finds setting s .extending path (.object ref) .instantiation (panicText name)
  | unsaved {path : List Step} {ref : ObjectRef} (e : ResourceError) :
      Finds setting s .saving path (.object ref) .instantiation
        s!"cannot save '{ref.typeName}': {e.message}"
  | savePanics {path : List Step} {ref : ObjectRef} {object : σ} {panic : Panic} (name : String)
      (found : s.object? ref = some object)
      (panics : ObjectClass.saveToCache object = .error (.panic panic)) :
      Finds setting s .saving path (.object ref) .instantiation (panicText name)
  | endless {stage : Stage} {path : List Step} {v : Value} (name : String)
      (revisits : stage = .expanding ∨ stage = .saving) :
      Finds setting s stage path v .instantiation (panicText name)

/-- **Where a step points with what it says of a node**: to the path of the node. There are two
exceptions. A file that is missing in an imported source is told of at its path in that source, not
in the tree; and an entry that an object offers is told of at the path where it would stand. -/
inductive Points (setting : Setting σ) (s : Store σ) : Stage → List Step → Value → Diagnostic → Prop
    where
  | node {stage : Stage} {path : List Step} {v : Value} {kind : Diagnostic.Kind} {message : String}
      (finds : Finds setting s stage path v kind message) :
      Points setting s stage path v ⟨kind, Step.render path, message⟩
  | imported {path below : List Step} {d source : Dict Value} {target v : Value} {text : String}
      {file : Path} {kind : Diagnostic.Kind} {message : String} (imports : Imports d target)
      (isText : target.asString? = some text)
      (found : setting.files.canonicalize (setting.basePath.join (namedFile text)) = .ok file)
      (read : setting.files.source file = .ok source)
      (meets : (Stage.anchoring ((file.parent?).getD ⟨"/"⟩)).Meets setting s source below v)
      (finds : Finds setting s (.anchoring ((file.parent?).getD ⟨"/"⟩)) below v kind message) :
      Points setting s .expanding path (.dict d) ⟨kind, Step.render below, message⟩
  | sibling {owner : String} {ref : ObjectRef} {object : σ} {offer : Dict Value}
      {entry : String × Value} (found : s.object? ref = some object)
      (offers : ObjectClass.siblings object ref = .ok (some offer))
      (offered : entry ∈ offer.entries) :
      Points setting s .extending [.member owner] (.object ref)
        ⟨.resolution, Step.render [.member entry.1],
          s!"sibling resource of '{owner}' collides with an existing entry"⟩

/-- **Where nothing is imported and nothing offered**, a step points to the path of the node. -/
theorem Points.path_eq {setting : Setting σ} {s : Store σ} {stage : Stage} {path : List Step}
    {v : Value} {e : Diagnostic} (h : Points setting s stage path v e)
    (himports : ∀ d target, v = .dict d → ¬ Imports d target) (hoffers : stage ≠ .extending) :
    e.path = Step.render path := by
  cases h with
  | node finds => rfl
  | imported imports => exact absurd imports (himports _ _ rfl)
  | sibling => exact absurd rfl hoffers

/-- A diagnostic is about a node that a step meets. -/
def Tells (setting : Setting σ) (s : Store σ) (stage : Stage) (tree : Dict Value)
    (e : Diagnostic) : Prop :=
  ∃ path v, stage.Meets setting s tree path v ∧ stage.Points setting s path v e

end Stage

variable {inv : Progress σ → Prop} {told : Diagnostic → Prop} {setting : Setting σ} {s : Store σ}
  {tree d : Dict Value} {place : Place}

/-! ## Anchored trees -/

theorem reporting_anchored (hinv : Progress.Steady inv) {dir : Path}
    (h : ∀ path v kind message, (Stage.anchoring dir).Meets setting s tree path v →
      (Stage.anchoring dir).Finds setting s path v kind message →
      told ⟨kind, Step.render path, message⟩) :
    (anchored dir).Reporting inv told setting ((Stage.anchoring dir).Stands setting s)
      (.dict tree) where
  steady := hinv
  onDict _ _ _ := reports_pure fun _ _ => reports_pure trivial
  onOther place v hplace := by
    unfold anchored
    dsimp only
    split
    · next raw hraw =>
      obtain ⟨text, htext, hmarked⟩ := Option.bind_eq_some_iff.mp hraw
      obtain rfl : v = .string text := by
        cases v <;> cases htext
        rfl
      unfold anchorFile
      refine reports_resolveFile_bind hinv (fun e he => ?_) fun path _ => reports_pure trivial
      exact reports_addError_pure hinv (h _ _ _ _ hplace (.missingFile hmarked he)) trivial
    · exact reports_pure trivial
  exhausted := by rintro ⟨_, _, _, ⟨⟩⟩

/-! ## Expanded trees -/

omit [ObjectClass σ] in
theorem steady_true : Progress.Steady (fun _ : Progress σ => True) := fun _ _ _ => trivial

theorem Stage.tells_node {stage : Stage} {path : List Step} {v : Value} {kind : Diagnostic.Kind}
    {message : String} (hplace : stage.Meets setting s tree path v)
    (h : stage.Finds setting s path v kind message) :
    stage.Tells setting s tree ⟨kind, Step.render path, message⟩ := ⟨path, v, hplace, .node h⟩

/-- The dictionary of an import is anchored where its file lies, by a walk of its own. -/
theorem reports_loadImport (hplace : Stage.expanding.Meets setting s tree place.path (.dict d))
    {target : Value} (himports : Imports d target) :
    Reports (fun _ => True) (fun _ => True) (Stage.expanding.Tells setting s tree) setting
      (fun _ => True) (loadImport place target) := by
  unfold loadImport
  cases htext : target.asString? with
  | none =>
    exact reports_addError_pure steady_true
      (Stage.tells_node hplace (.importKind himports htext)) trivial
  | some text =>
    refine reports_read_bind (reports_resolveFile_bind steady_true (fun e he => ?_)
      fun file hfile => ?_)
    · exact reports_addError_pure steady_true
        (Stage.tells_node hplace (.importFailed _ himports htext (.inl he))) trivial
    · simp only [pure_bind, FileView.source_pair]
      cases hsource : setting.files.source file with
      | error e =>
        exact reports_addError_pure steady_true (Stage.tells_node hplace
          (.importFailed _ himports htext (.inr ⟨file, hfile, hsource⟩))) trivial
      | ok source =>
        dsimp only [Except.map]
        rw [map_eq_pure_bind]
        have hanchored : (anchored ((file.parent?).getD ⟨"/"⟩)).Reporting (fun _ => True)
            (Stage.expanding.Tells setting s tree) setting
            ((Stage.anchoring ((file.parent?).getD ⟨"/"⟩)).Stands setting s) (.dict source) :=
          reporting_anchored steady_true fun below v kind message hmeets hfinds =>
            ⟨place.path, .dict d, hplace, .imported himports htext hfile hsource hmeets hfinds⟩
        exact (Rewrite.reports_run hanchored 0).bind_pure fun _ _ => trivial

theorem reports_applyImports (hplace : Stage.expanding.Meets setting s tree place.path (.dict d)) :
    Reports (fun _ => True) (fun _ => True) (Stage.expanding.Tells setting s tree) setting
      (fun _ => True) (applyImports place d) := by
  unfold applyImports
  split
  · exact reports_pure trivial
  · next targets htargets =>
    refine reports_foldlM _ (fun lower target htarget => ?_) _
    refine (reports_loadImport hplace ⟨targets, htargets, htarget⟩).bind fun found _ => ?_
    cases found with
    | none => exact reports_pure trivial
    | some imported => exact reports_handles_bind fun _ _ => reports_pure trivial

theorem reports_applyTemplate (hplace : Stage.expanding.Meets setting s tree place.path (.dict d))
    {lower : Dict Value} {p q : Progress σ}
    (hrun : (applyImports place d).run setting p = (.ok lower, q)) :
    Reports (fun _ => True) (fun _ => True) (Stage.expanding.Tells setting s tree) setting
      (fun _ => True) (applyTemplate place lower) := by
  unfold applyTemplate
  split
  · exact reports_pure trivial
  · next template htemplate =>
    dsimp only
    split
    · next hname =>
      exact reports_addError_pure steady_true
        (Stage.tells_node hplace (.templateKind place hrun htemplate hname)) trivial
    · next name hname =>
      obtain rfl : template = .string name := by
        cases template <;> cases hname
        rfl
      refine reports_handles_bind fun p' _ => ?_
      split
      · exact reports_pure trivial
      · next hmissing =>
        exact reports_addError_pure steady_true
          (Stage.tells_node hplace (.undefinedTemplate _ place hrun htemplate hmissing)) trivial

theorem reports_expandDict (hplace : Stage.expanding.Meets setting s tree place.path (.dict d)) :
    Reports (fun _ => True) (fun _ => True) (Stage.expanding.Tells setting s tree) setting
      (fun _ => True) (expandDict place d) := by
  refine ((reports_applyImports hplace).and_always (always_run _)).bind fun lower hlower => ?_
  obtain ⟨-, p, q, hrun⟩ := hlower
  exact reports_applyTemplate hplace hrun

theorem reports_expandString {text : String}
    (hplace : Stage.expanding.Meets setting s tree place.path (.string text)) :
    Reports (fun _ => True) (fun _ => True) (Stage.expanding.Tells setting s tree) setting
      (OtherPlan.Reporting (fun _ => True) (Stage.expanding.Tells setting s tree) setting
        (Stage.expanding.Stands setting s place.path (.string text)))
      (expandString place text) := by
  unfold expandString
  split
  · next name hname =>
    unfold expandValue
    split
    · exact reports_addError_pure steady_true
        (Stage.tells_node hplace (.nestedValue hname)) trivial
    · refine reports_handles_bind fun p _ => ?_
      split
      · next v hv => exact reports_pure (Stage.Stands.value _ place hname hv)
      · next hmissing =>
        exact reports_addError_pure steady_true
          (Stage.tells_node hplace (.undefinedValue _ place hname hmissing)) trivial
  · split
    · exact (reports_reference (fun _ _ _ _ => trivial) _).bind fun _ _ => reports_pure trivial
    · exact reports_pure trivial

theorem reporting_expanded :
    (expanded : Rewrite σ).Reporting (fun _ => True) (Stage.expanding.Tells setting s tree) setting
      (Stage.expanding.Stands setting s) (.dict tree) where
  steady := steady_true
  onDict place d hplace := by
    unfold expanded
    dsimp only
    split
    · next hdirective =>
      split
      · exact reports_addError_pure steady_true
          (Stage.tells_node hplace (.nestedDirective hdirective)) trivial
      · refine ((reports_expandDict hplace).and_always (always_run _)).bind_pure fun d' hd' => ?_
        obtain ⟨-, p, q, hrun⟩ := hd'
        exact .over place hdirective hrun
    · exact reports_handles_bind fun _ _ => reports_pure fun _ _ => reports_pure trivial
  onOther place v hplace := by
    unfold expanded
    dsimp only
    split
    · exact reports_expandString hplace
    · exact reports_pure trivial
  exhausted _ _ _ hplace name := Stage.tells_node hplace (.endless name (by simp))

/-! ## Instantiated trees -/

theorem reports_instantiate
    (hplace : Stage.instantiating.Meets setting s tree place.path (.dict d))
    {members : Dict Value} (hmade : instantiated.Makes setting place [] d members) :
    Reports (fun _ => True) (fun _ => True) (Stage.instantiating.Tells setting s tree) setting
      (fun _ => True) (instantiate place members) := by
  unfold instantiate
  split
  · exact reports_pure trivial
  · split
    · exact reports_pure trivial
    · next typeName htype =>
      refine reports_read_bind ?_
      split
      · next fresh hfresh =>
        unfold loadObject
        refine reports_read_bind ((reports_perform steady_true (fun kind message hload =>
          Stage.tells_node hplace (.loading place hmade htype hfresh hload))
          (reports_reference fun _ _ _ _ => trivial)).bind fun loaded hloaded => ?_)
        cases loaded with
        | error e =>
          exact reports_addError_pure steady_true (Stage.tells_node hplace
            (.loading place hmade htype hfresh (hloaded e rfl))) trivial
        | ok object =>
          refine Reports.bind (reports_modifyGet (fun _ _ => trivial) fun _ => rfl) fun ref _ => ?_
          dsimp only
          split
          · exact (reports_publish (fun _ _ _ _ => trivial) _ _).bind fun _ _ =>
              reports_pure trivial
          · exact reports_pure trivial
      · next hunknown =>
        exact reports_addError_pure steady_true
          (Stage.tells_node hplace (.unknownType place hmade htype hunknown)) trivial
    · next v hno htype =>
      have hnoText : v.asString? = none := by
        cases v with
        | string text => exact absurd rfl (hno text)
        | _ => rfl
      exact reports_addError_pure steady_true
        (Stage.tells_node hplace (.typeKind place hmade htype hnoText)) trivial

theorem reporting_instantiated :
    (instantiated : Rewrite σ).Reporting (fun _ => True)
      (Stage.instantiating.Tells setting s tree) setting (Stage.instantiating.Stands setting s)
      (.dict tree) where
  steady := steady_true
  onDict _ _ hplace := reports_pure fun _ hmade => reports_instantiate hplace hmade
  onOther _ _ _ := reports_pure trivial
  exhausted := by rintro ⟨_, _, _, ⟨⟩⟩

end Compile

end ResourceTree
