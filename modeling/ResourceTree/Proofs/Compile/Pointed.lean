import ResourceTree.Proofs.Compile.Fenced
import ResourceTree.Proofs.Compile.Told

/-!
# Pointed diagnostics — which node a diagnostic of a compile is about

Every diagnostic of an output was told of by a step of the compile, about a node that the step met
in its tree. The objects that an object depends on are finished where it is met first, so what is
said of them is told of there.

* `reports_finishAlone`, **`reports_finishObject`**, `reporting_finished`: finished objects;
* `reports_extended`, `reporting_saved`: the last steps;
* **`Stage.reports_run`**: any step;
* `ComesTo`, **`Pointed`**, **`pipeline_pointed`**: a whole compile;
* `overGap`, `waitingForFailure`, `not_pointed_elsewhere`: diagnostics that do not lie at the root
  entry that they are about.
-/

namespace ResourceTree

open ResourceTree.Action

variable {σ : Type} [ObjectClass σ]

namespace FinishTable

variable {t t' : FinishTable} {object worker : Nat} {verdict : Verdict}

theorem Starts.finished_eq (h : Starts t object worker verdict t') : t'.finished = t.finished := by
  cases h <;> rfl

theorem Starts.not_mem (h : Starts t object worker .begun t') : object ∉ t.finished := by
  cases h with
  | begun hopen hfree => exact hopen

end FinishTable

namespace Compile

variable {setting : Setting σ} {s : Store σ} {tree d : Dict Value} {place : Place}

/-! ## Finished trees -/

omit [ObjectClass σ] in
theorem steady_rest : Progress.Steady (Rest s []) := by
  intro p note h
  cases note <;> exact ⟨h.handles, h.objects⟩

omit [ObjectClass σ] in
theorem rest_cons {id : Nat} (p : Progress σ) (h : Rest s [] p) : Rest s [id] p :=
  ⟨h.handles, fun id hopen _ => h.objects id hopen List.not_mem_nil⟩

section Finished

variable {ref root : ObjectRef} (hplace : Stage.finishing.Meets setting s tree place.path
  (.object root)) (hneeds : Relation.ReflTransGen s.Depends root ref)

include hplace hneeds

theorem reports_finishAlone :
    Reports (Rest s []) (Rest s [ref.id]) (Stage.finishing.Tells setting s tree) setting
      (fun _ => True) (finishAlone place ref) := by
  unfold finishAlone
  refine reports_store_bind fun p hp => ?_
  split
  · next object hobject =>
    split
    · next object' _ =>
      refine reports_modifyGet (fun q hq => ⟨hq.handles, fun id hopen hid => ?_⟩) fun _ => rfl
      have hne : ref.id ≠ id := fun heq => hid (heq ▸ List.mem_singleton_self _)
      show (q.store.objects.modify ref.id _)[id]? = _
      rw [Array.getElem?_modify, if_neg hne]
      exact hq.objects id hopen List.not_mem_nil
    · next e he =>
      exact (reports_addError steady_rest
        (Stage.tells_node hplace (.unfinished hneeds hp hobject he))).kept rest_cons
    · next panic hpanic =>
      exact (reports_crash panic fun name =>
        Stage.tells_node hplace (.finishPanics name hneeds hp hobject hpanic)).kept rest_cons
  · exact (reports_pure trivial).kept rest_cons

omit hneeds in
theorem reports_work {levels : Nat} {dependencies : List Value}
    (hneeds : Relation.ReflTransGen s.Depends root ref)
    (hgraph : s.graph ref.id = some (dependencies.filterMap (dependencyObject? s.handles)))
    (hvisit : ∀ other, Relation.ReflTransGen s.Depends root other →
      Reports (Rest s []) (Rest s []) (Stage.finishing.Tells setting s tree) setting
        (fun _ => True) (finishObject place levels other)) :
    Reports (Rest s []) (Rest s []) (Stage.finishing.Tells setting s tree) setting (fun _ => True)
      (Action.andFinally (do
        visitDependencies (finishObject place levels) dependencies
        finishAlone place ref) (withTable fun t => ((), t.finish ref.id))) := by
  have hvisited : Reports (Rest s []) (Rest s []) (Stage.finishing.Tells setting s tree) setting
      (fun _ => True) (visitDependencies (finishObject place levels) dependencies) := by
    refine reports_forM dependencies fun dependency hdependency =>
      reports_handles_bind fun p hp => ?_
    rw [hp.handles]
    split
    · next other hother =>
      exact hvisit other (hneeds.tail
        ⟨_, hgraph, List.mem_filterMap.mpr ⟨dependency, hdependency, hother⟩⟩)
    · exact reports_pure trivial
  have hwork := hvisited.bind_kept rest_cons fun _ _ => reports_finishAlone hplace hneeds
  refine hwork.andFinally fun p hp => ?_
  refine ⟨_, run_withTable _, ⟨hp.handles, fun id hid _ => ?_⟩, rfl⟩
  obtain ⟨hne, hid⟩ := not_or.mp (mt List.mem_cons.mpr hid)
  exact hp.objects id hid (by simpa using hne)

omit hneeds in
/-- **What is said of an object is told of where the first object was met** that leads to it. -/
theorem reports_finishObject (levels : Nat) (hneeds : Relation.ReflTransGen s.Depends root ref) :
    Reports (Rest s []) (Rest s []) (Stage.finishing.Tells setting s tree) setting
      (fun _ => True) (finishObject place levels ref) := by
  induction levels generalizing ref with
  | zero => exact reports_pure trivial
  | succ levels ih =>
    intro p r q hp hrun
    unfold finishObject at hrun
    rw [run_bind_of_ok run_store] at hrun
    cases hdependencies : (p.store.object? ref).bind ObjectClass.dependencies with
    | none =>
      rw [hdependencies] at hrun
      exact reports_pure trivial p r q hp hrun
    | some dependencies =>
      rw [hdependencies] at hrun
      dsimp only at hrun
      rw [run_bind_of_ok (run_withTable _)] at hrun
      cases hasked : p.finishing.start ref.id place.worker with
      | mk verdict t =>
        have hstarts := FinishTable.starts_of_eq hasked
        have hp' : Rest s [] { p with finishing := t } :=
          ⟨hp.handles, fun id hid => hp.objects id (hstarts.finished_eq ▸ hid)⟩
        rw [hasked] at hrun
        suffices hrest : Reported (Rest s []) (Stage.finishing.Tells setting s tree)
            (fun _ => True) { p with finishing := t } r q from hrest.of_errors rfl
        cases verdict with
        | finished => exact reports_pure trivial _ r q hp' hrun
        | cycle =>
          exact reports_record steady_rest
            (Stage.tells_node hplace (.selfDependency hneeds)) _ r q hp' hrun
        | wait =>
          have hwait : Reports (Rest s []) (Rest s []) (Stage.finishing.Tells setting s tree)
              setting (fun _ => True) (withTable fun t => ((), t.stopWaiting place.worker)) :=
            reports_modifyGet (fun _ h => ⟨h.handles, h.objects⟩) fun _ => rfl
          exact hwait _ r q hp' hrun
        | begun =>
          -- an object that was not finished depends on what it depended on in the beginning
          have hgraph : s.graph ref.id =
              some (dependencies.filterMap (dependencyObject? s.handles)) := by
            rw [Store.object?, hp.objects ref.id hstarts.not_mem List.not_mem_nil]
              at hdependencies
            rw [Store.graph, hdependencies]
            rfl
          exact reports_work hplace hneeds hgraph (fun other hother => ih hother) _ r q hp' hrun

end Finished

theorem reporting_finished :
    (finished : Rewrite σ).Reporting (Rest s []) (Stage.finishing.Tells setting s tree) setting
      (Stage.finishing.Stands setting s) (.dict tree) where
  steady := steady_rest
  onDict _ _ _ := reports_pure fun _ _ => reports_pure trivial
  onOther place v hplace := by
    unfold finished
    dsimp only
    split
    · exact reports_store_bind fun p _ =>
        (reports_finishObject hplace _ .refl).bind_pure fun _ _ => trivial
    · exact reports_pure trivial
  exhausted := by rintro ⟨_, _, _, ⟨⟩⟩

/-! ## Extended and saved trees -/

/-- The objects are those of a store. -/
abbrev SameObjects (s : Store σ) (p : Progress σ) : Prop := p.store.objects = s.objects

omit [ObjectClass σ] in
theorem steady_sameObjects : Progress.Steady (SameObjects s) := by
  intro p note h
  cases note <;> exact h

theorem reports_offerOf {name : String} {ref : ObjectRef}
    (hplace : Stage.extending.Meets setting s tree [.member name] (.object ref)) :
    Reports (SameObjects s) (SameObjects s) (Stage.extending.Tells setting s tree) setting
      (fun offer => ∀ d, offer = some d → ∃ object, s.object? ref = some object ∧
        ObjectClass.siblings object ref = .ok (some d)) (offerOf name ref) := by
  unfold offerOf
  refine reports_store_bind fun p hp => ?_
  split
  · exact reports_pure nofun
  · next object hobject =>
    rw [Store.object?, hp] at hobject
    split
    · next offer hoffer =>
      refine reports_pure ?_
      rintro d rfl
      exact ⟨object, hobject, hoffer⟩
    · next hpanic =>
      exact reports_throw fun owner => Stage.tells_node hplace (.offerPanics owner hobject hpanic)

/-- An entry whose name is taken is told of where it would stand. -/
theorem reports_addSiblings {entry : String × Value} (hentry : entry ∈ tree.entries)
    (root : Dict Value) :
    Reports (SameObjects s) (SameObjects s) (Stage.extending.Tells setting s tree) setting
      (fun _ => True) (addSiblings root entry) := by
  obtain ⟨owner, v⟩ := entry
  have hplace : Stage.extending.Meets setting s tree [.member owner] v := Met.root.member hentry
  unfold addSiblings
  split
  · next ref href =>
    obtain rfl : v = .object ref := href
    refine (reports_offerOf hplace).bind fun offer hoffer => ?_
    split
    · next d =>
      obtain ⟨object, hobject, hsiblings⟩ := hoffer d rfl
      refine reports_foldlM _ (fun out entry hentry => ?_) _
      have hin := Dict.inKeyOrder_subset hentry
      unfold addSibling
      split
      · refine (reports_record steady_sameObjects
          ⟨_, _, hplace, ?_⟩).bind fun _ _ => reports_pure trivial
        rw [← Step.render_member]
        exact .sibling hobject hsiblings hin
      · exact (reports_publish (fun _ _ _ hp => hp) _ _).bind fun _ _ => reports_pure trivial
    · exact reports_pure trivial
  · exact reports_pure trivial

theorem reports_extended :
    Reports (SameObjects s) (SameObjects s) (Stage.extending.Tells setting s tree) setting
      (fun _ => True) (extended tree) :=
  reports_foldlM _ (fun root _ hentry =>
    reports_addSiblings (Dict.inKeyOrder_subset hentry) root) _

theorem reports_cannotSave {ref : ObjectRef} (e : ResourceError)
    (hplace : Stage.saving.Meets setting s tree place.path (.object ref)) :
    Reports (SameObjects s) (SameObjects s) (Stage.saving.Tells setting s tree) setting
      (fun _ => True) (cannotSave place ref e) :=
  reports_addError steady_sameObjects (Stage.tells_node hplace (.unsaved e))

theorem reporting_saved :
    (saved : Rewrite σ).Reporting (SameObjects s) (Stage.saving.Tells setting s tree) setting
      (Stage.saving.Stands setting s) (.dict tree) where
  steady := steady_sameObjects
  onDict _ _ _ := reports_pure fun _ _ => reports_pure trivial
  onOther place v hplace := by
    unfold saved
    dsimp only
    split
    · next ref =>
      unfold saveObject
      refine reports_store_bind fun p hp => ?_
      split
      · exact reports_pure trivial
      · next object hobject =>
        rw [Store.object?, hp] at hobject
        split
        · next members hmembers =>
          refine reports_pure ⟨.saved hobject hmembers, fun out => ?_⟩
          unfold packSaved
          split
          · exact reports_pure trivial
          · exact (reports_cannotSave _ hplace).bind_pure fun _ _ => trivial
        · exact (reports_cannotSave _ hplace).bind_pure fun _ _ => trivial
        · next hpanic =>
          exact reports_crash _ fun name =>
            Stage.tells_node hplace (.savePanics name hobject hpanic)
    · exact reports_pure trivial
  exhausted _ _ _ hplace name := Stage.tells_node hplace (.endless name (by simp))

/-! ## Compiles -/

namespace Stage

/-- **A step tells of nodes that it meets**, from wherever it starts. -/
theorem reports_run (stage : Stage) {p : Progress σ} {r : Except Crash (Dict Value)}
    {q : Progress σ} (hrun : (stage.run tree).run setting p = (r, q)) :
    ∀ e ∈ q.errors, e ∈ p.errors ∨ stage.Tells setting p.store tree e := by
  cases stage with
  | anchoring dir =>
    have hwalk : (anchored dir).Reporting (fun _ => True)
        ((anchoring dir).Tells setting p.store tree) setting
        ((anchoring dir).Stands setting p.store) (.dict tree) :=
      reporting_anchored steady_true fun _ _ _ _ => tells_node
    exact (Rewrite.reports_run hwalk 0 p r q trivial hrun).added
  | expanding => exact (Rewrite.reports_run reporting_expanded _ p r q trivial hrun).added
  | instantiating => exact (Rewrite.reports_run reporting_instantiated _ p r q trivial hrun).added
  | finishing =>
    exact (Rewrite.reports_run reporting_finished _ p r q ⟨rfl, fun _ _ _ => rfl⟩ hrun).added
  | extending => exact (reports_extended p r q rfl hrun).added
  | saving => exact (Rewrite.reports_run reporting_saved _ p r q rfl hrun).added
  | stripping =>
    cases hrun
    exact fun e he => .inl he

/-- The step that follows. -/
def next? : Stage → Option Stage
  | anchoring _ => some expanding
  | expanding => some instantiating
  | instantiating => some finishing
  | finishing => some extending
  | extending => some saving
  | saving => some stripping
  | stripping => none

end Stage

/-- **What a compile comes to**: a step that it takes next, with the tree and the progress that the
steps before have left. -/
inductive ComesTo (setting : Setting σ) (dir : Path) (d : Dict Value) (start : Progress σ) :
    Stage → Dict Value → Progress σ → Prop where
  | first : ComesTo setting dir d start (.anchoring dir) d start
  | next {stage stage' : Stage} {tree tree' : Dict Value} {p q : Progress σ}
      (here : ComesTo setting dir d start stage tree p)
      (run : (stage.run tree).run setting p = (.ok tree', q)) (next : stage.next? = some stage') :
      ComesTo setting dir d start stage' tree' q

/-- **A diagnostic that points at a node** which a step of the compile meets. -/
def Pointed (setting : Setting σ) (dir : Path) (d : Dict Value) (start : Progress σ)
    (e : Diagnostic) : Prop :=
  ∃ stage tree p, ComesTo setting dir d start stage tree p ∧
    ∃ path v, stage.Meets setting p.store tree path v ∧ stage.Points setting p.store path v e

theorem ComesTo.pointed {dir : Path} {start p : Progress σ} {stage : Stage}
    (h : ComesTo setting dir d start stage tree p) :
    ∀ e ∈ p.errors, e ∈ start.errors ∨ Pointed setting dir d start e := by
  induction h with
  | first => exact fun e he => .inl he
  | next here run _ ih =>
    intro e he
    rcases Stage.reports_run _ run e he with hbefore | htold
    · exact ih e hbefore
    · exact .inr ⟨_, _, _, here, htold⟩

theorem comesTo_built {dir : Path} {start q : Progress σ} {result : Dict Value × Bool}
    (hrun : (built dir d).run setting start = (.ok result, q)) :
    ComesTo setting dir d start .stripping result.1 q := by
  rw [built_eq] at hrun
  obtain ⟨d₁, p₁, h₁, hrun⟩ := run_bind_ok.mp hrun
  obtain ⟨d₂, p₂, h₂, hrun⟩ := run_bind_ok.mp hrun
  obtain ⟨hs, p₃, h₃, hrun⟩ := run_bind_ok.mp hrun
  cases h₃
  obtain ⟨d₄, p₄, h₄, hrun⟩ := run_bind_ok.mp hrun
  obtain ⟨d₅, p₅, h₅, hrun⟩ := run_bind_ok.mp hrun
  obtain ⟨d₆, p₆, h₆, hrun⟩ := run_bind_ok.mp hrun
  obtain ⟨d₇, p₇, h₇, hrun⟩ := run_bind_ok.mp hrun
  cases hrun
  exact ComesTo.first.next h₁ rfl |>.next h₂ rfl |>.next h₄ rfl |>.next h₅ rfl |>.next h₆ rfl
    |>.next h₇ rfl

/-- **Every diagnostic of a compile points at a node**, in whatever order its tasks come to run. -/
theorem pipeline_pointed {dir : Path} {source : Option Path} {o : Output} {q : Progress σ}
    (h : (pipeline dir source d).run setting (Progress.initial s) = (.ok o, q)) :
    ∀ e ∈ o.errors,
      Pointed setting dir d { Progress.initial s with files := source.toList } e := by
  rw [run_pipeline] at h
  split at h
  · next result p hrun =>
    cases h
    intro e he
    have hp := (comesTo_built hrun).pointed e (Array.mem_toList_iff.mp he)
    exact hp.resolve_left (Array.not_mem_empty e)
  · cases h

end Compile

namespace Compiler

/-! ### Diagnostics that point elsewhere -/

/-- A source that names a file which is missing. -/
def gapFiles : MemoryFiles := MemoryFiles.empty.insert ⟨"/res/part.json"⟩
  (Bytes.ofString "\x7b\"x\":\"file:gone.txt\"\x7d")

def overGap : Compiler MemoryFiles Item := { alone with files := gapFiles }

/-- A source that imports it, in its only root entry. -/
def importing : Dict Value := Dict.ofValues
  [("k", .dict (Dict.ofValues [(Reserved.import_, .string "part.json")]))]

/-- What is said of the missing file. -/
def gap : Diagnostic := ⟨.resolution, "/x", "missing file 'gone.txt': Not found: /res/gone.txt"⟩

/-- It points at a node of the imported source. -/
theorem pipeline_pointed_importing : ∃ o q,
    (Compile.pipeline ⟨"/res"⟩ none importing).run (overGap.settingIn ⟨"/res"⟩)
      (Progress.initial .empty) = (.ok o, q) ∧
    o.errors = [gap] ∧ ∀ e ∈ o.errors, Compile.Pointed (overGap.settingIn ⟨"/res"⟩) ⟨"/res"⟩
      importing (Progress.initial .empty) e := by
  have herrors : ((Compile.pipeline ⟨"/res"⟩ none importing).run (overGap.settingIn ⟨"/res"⟩)
      (Progress.initial .empty)).1.toOption.map Output.errors = some [gap] := by decide +kernel
  cases hrun : (Compile.pipeline ⟨"/res"⟩ none importing).run (overGap.settingIn ⟨"/res"⟩)
      (Progress.initial .empty) with
  | mk r q =>
    rw [hrun] at herrors
    cases r with
    | error crash => cases herrors
    | ok o => exact ⟨o, q, rfl, Option.some.inj herrors, Compile.pipeline_pointed hrun⟩

/-- A thing that waits for another one, which fails when it is finished. -/
def waitingForFailure : Dict Value := Dict.ofValues
  [("a", .dict (Dict.ofValues [(Reserved.type, .string Thing.typeName), ("n", .number .zero),
      ("refs", .list [.string "b"])])),
    ("b", .dict (Dict.ofValues [(Reserved.type, .string Thing.typeName), ("n", .number .zero),
      ("fail", .string Thing.Phase.finish.name)]))]

/-- The diagnostics of a compile that gave an output. -/
def errors? {φ σ : Type} (compiled : Compiled φ σ) : Option (List Diagnostic) :=
  compiled.outcome.toOption.map fun result => result.1.errors

/-- **A diagnostic may point elsewhere.** That of a file missing in a source that the entry `k`
imports does not lie below `k`, and that of the thing `b`, which fails, lies at the entry `a`, which
waits for it. -/
theorem not_pointed_elsewhere :
    (errors? (overGap.compileDict .empty importing ⟨"/res"⟩) = some [gap] ∧
      ¬ "/k".toList <+: gap.path.toList) ∧
    errors? (alone.compileDict .empty waitingForFailure ⟨"/"⟩) =
      some [⟨.instantiation, "/a", "Failed to load 'thing': told to fail"⟩,
        ⟨.instantiation, "/a", "Failed to load 'thing': dependency finished late"⟩] := by
  refine ⟨⟨?_, ?_⟩, ?_⟩ <;> decide +kernel

end Compiler

end ResourceTree
