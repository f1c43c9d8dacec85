import ResourceTree.Proofs.Compile.Lossless
import ResourceTree.Proofs.Compile.Publishing
import ResourceTree.Proofs.Walk.Safe

/-!
# Tame objects — steps that break off only where a callback may panic

Where all objects that are there are tame, every step of a compile leaves tame objects only, and it
breaks off only if loads and finishes may panic.

* `Loading.Yields`, **`ObjectClass.Tame`**: objects whose callbacks do not panic, or some of them;
* **`Progress.Lasting`**: an invariant that a compile keeps; `Progress.Sound`, `lasting_sound`: all
  objects are tame, and some diagnostics are recorded;
* `safe_perform`, `safe_instantiate`, `safe_finishObject`, `safe_addSiblings`: what callbacks do;
* `safe_run_anchored`, `safe_run_expanded`, `safe_run_instantiated`, `safe_run_finished`,
  `safe_extended`, **`safe_unsaved`**: the steps before a tree is saved.
-/

namespace ResourceTree

open ResourceTree.Action

/-! ## Tame objects -/

/-- What a load gives is as `post` says, and it panics only if `breaks`, whatever the answers to its
requests are. -/
def Loading.Yields {α : Type} (post : α → Prop) (breaks : Prop) : Loading α → Prop
  | .done result => post result
  | .failed (.error _) => True
  | .failed (.panic _) => breaks
  | .report _ next => next.Yields post breaks
  | .file _ next => ∀ answer, (next answer).Yields post breaks
  | .reference _ next => ∀ h, (next h).Yields post breaks

/-- **Good objects are tame**: what is made of them is good, loads from source and finishes panic
only if `breaks`, and the other callbacks never do. -/
structure ObjectClass.Tame {σ : Type} [ObjectClass σ] (good : σ → Prop) (breaks : Prop) : Prop where
  load : ∀ object d, good object → (ObjectClass.loadFromSource object d).Yields good breaks
  finish : ∀ s object, good object →
    (∀ object', ObjectClass.finish s object = .ok object' → good object') ∧
    ∀ panic, ObjectClass.finish s object = .error (.panic panic) → breaks
  siblings : ∀ object ref panic, good object → ObjectClass.siblings object ref ≠ .error panic
  save : ∀ object panic, good object → ObjectClass.saveToCache object ≠ .error (.panic panic)

/-- **An invariant that a compile keeps**, as long as it makes good objects only. -/
structure Progress.Lasting {σ : Type} (good : σ → Prop) (inv : Progress σ → Prop) : Prop where
  steady : Progress.Steady inv
  objects : ∀ p ref object, inv p → p.store.object? ref = some object → good object
  published : ∀ p name v, inv p → inv (p.published name v)
  table : ∀ p finishing, inv p → inv { p with finishing }
  added : ∀ p typeName object, good object → inv p →
    inv { p with store := (p.store.addObject typeName object).2 }
  finished : ∀ p ref object, good object → inv p → inv { p with
    store := p.store.setObject ref object
    finished := p.finished.push ref }

/-- All objects are good, and some diagnostics are recorded. -/
structure Progress.Sound {σ : Type} (good : σ → Prop) (seen : List Diagnostic) (p : Progress σ) :
    Prop where
  objects : ∀ ref object, p.store.object? ref = some object → good object
  errors : ∀ e ∈ seen, e ∈ p.errors

/-- The fresh objects of a registry are good. -/
def Registry.Offers {σ : Type} (r : Registry σ) (good : σ → Prop) : Prop :=
  ∀ name object, r.create? name = some object → good object

namespace Progress

variable {σ : Type} {good : σ → Prop} {seen : List Diagnostic} {p q : Progress σ}

theorem Sound.of_same (h : p.Sound good seen) (hobjects : q.store.objects = p.store.objects)
    (herrors : q.errors = p.errors) : q.Sound good seen where
  objects ref object hfound := h.objects ref object (by
    rw [Store.object?, hobjects] at hfound
    exact hfound)
  errors := by
    rw [herrors]
    exact h.errors

theorem steady_sound : Steady (Sound (σ := σ) good seen) := by
  intro p note h
  cases note with
  | diagnostic d => exact ⟨h.objects, fun e he => Array.mem_push_of_mem d (h.errors e he)⟩
  | file path => exact h.of_same rfl rfl
  | worker => exact h.of_same rfl rfl

theorem Sound.addObject (h : p.Sound good seen) {object : σ} (hobject : good object)
    (typeName : String) :
    Sound good seen { p with store := (p.store.addObject typeName object).2 } where
  objects ref found hfound := by
    rw [Store.object?, Store.addObject, Array.getElem?_push] at hfound
    split at hfound
    · cases hfound
      exact hobject
    · exact h.objects ref found hfound
  errors := h.errors

theorem Sound.setObject (h : p.Sound good seen) {object : σ} (hobject : good object)
    (ref : ObjectRef) : Sound good seen { p with
      store := p.store.setObject ref object
      finished := p.finished.push ref } where
  objects other found hfound := by
    rw [Store.object?, Store.setObject, Array.getElem?_modify] at hfound
    split at hfound
    · have hgood : ∀ slot : Option σ,
          (Option.map (fun _ => object) slot) = some found → good found := by
        rintro (_ | _) heq
        · cases heq
        · cases heq
          exact hobject
      cases hslot : p.store.objects[other.id]? with
      | none =>
        rw [hslot] at hfound
        cases hfound
      | some slot =>
        rw [hslot] at hfound
        exact hgood slot hfound
    · exact h.objects other found hfound
  errors := h.errors

theorem lasting_sound : Lasting good (Sound good seen) where
  steady := steady_sound
  objects _ ref object hp := hp.objects ref object
  published _ _ _ hp := hp.of_same objects_published errors_published
  table _ _ hp := hp.of_same rfl rfl
  added _ typeName _ hobject hp := hp.addObject hobject typeName
  finished _ ref _ hobject hp := hp.setObject hobject ref

end Progress

namespace Compile

variable {σ : Type} {good : σ → Prop} {breaks : Prop} {setting : Setting σ}
  {inv : Progress σ → Prop}

/-! ## Loads that are carried out -/

theorem always_perform {loading : Loading σ} (h : loading.Yields good breaks) (place : Place) :
    Always setting (fun result => ∀ object, result = .ok object → good object)
      (loading.perform place) := by
  induction loading with
  | done result => exact always_pure fun object heq => Except.ok.inj heq ▸ h
  | failed failure =>
    cases failure with
    | error e => exact always_pure nofun
    | panic p => exact fun _ _ _ hrun => nomatch hrun
  | report message next ih => exact always_true.bind fun _ _ => ih h
  | file path next ih =>
    unfold Loading.perform
    refine always_true.bind fun s _ => always_true.bind fun found _ => ?_
    cases found with
    | ok found => exact ih (some found) (h (some found))
    | error e => exact always_true.bind fun _ _ => ih none (h none)
  | reference name next ih => exact always_true.bind fun handle _ => ih handle (h handle)

/-- Any load is fine where nothing is asked of it. -/
theorem yields_true {α : Type} (loading : Loading α) : loading.Yields (fun _ => True) True := by
  induction loading with
  | done result => trivial
  | failed failure => cases failure <;> trivial
  | report message next ih => exact ih
  | file path next ih => exact ih
  | reference name next ih => exact ih

/-- A load is safe for an invariant that notes and references keep. -/
theorem safe_perform (hinv : Progress.Steady inv)
    (href : ∀ name, Safe inv breaks setting (fun _ => True) (reference name))
    {loading : Loading σ} (h : loading.Yields good breaks) (place : Place) :
    Safe inv breaks setting (fun _ => True) (loading.perform place) := by
  induction loading with
  | done result => exact safe_pure trivial
  | failed failure =>
    cases failure with
    | error e => exact safe_pure trivial
    | panic p => exact safe_crash h place p
  | report message next ih => exact (safe_record hinv _).andThen fun _ => ih h
  | file path next ih =>
    unfold Loading.perform
    refine safe_read_bind (Safe.andThen
      (safe_of_noting hinv (noting_resolveFile _ _)) fun found => ?_)
    cases found with
    | ok found => exact ih (some found) (h (some found))
    | error e => exact (safe_record hinv _).andThen fun _ => ih none (h none)
  | reference name next ih => exact (href name).andThen fun handle => ih handle (h handle)

/-! ## Steps that keep an invariant -/

section Lasting

variable (hinv : Progress.Lasting good inv)

include hinv

/-! ### Handles and tables -/

theorem safe_reference (name : String) :
    Safe inv breaks setting (fun _ => True) (reference name) := by
  refine safe_modifyGet fun p hp => ?_
  have hnext : inv ((reference name).run setting p).2 := by
    rw [Progress.progress_reference]
    split_ifs
    · exact hp
    · exact hinv.published p name .null hp
  exact hnext

theorem safe_publish (name : String) (v : Value) :
    Safe inv breaks setting (fun _ => True) (publish name v) :=
  safe_modifyGet fun p hp => hinv.published p name v hp

theorem safe_withTable {α : Type} (f : FinishTable → α × FinishTable) :
    Safe inv breaks setting (fun _ => True) (withTable f : Action σ α) :=
  safe_modifyGet fun p hp => hinv.table p _ hp

/-! ### Anchored and expanded trees -/

theorem safe_run_anchored (dir : Path) (d : Dict Value) :
    Safe inv breaks setting (fun _ => True) ((anchored dir).run 0 d) :=
  safe_of_noting hinv.steady (noting_run_anchored dir d)

theorem indifferent_safe : Indifferent (safe inv hinv.steady breaks) setting where
  noting := safe_of_noting hinv.steady
  reference := safe_reference hinv
  handles := safe_handles_bind

theorem safe_run_expanded (d : Dict Value) :
    Safe inv breaks setting (fun _ => True) (expanded.run revisitLimit d) := by
  unfold Rewrite.run
  refine (safe_nextWorker hinv.steady).andThen fun worker => ?_
  refine Safe.andThen (says_expansion (indifferent_safe hinv) (.dict d) (Place.root worker))
    fun result => ?_
  split
  · exact safe_pure trivial
  · exact safe_handles_bind fun hs => safe_pure trivial
  · exact safe_pure trivial

/-! ### Instantiated trees -/

section Objects

variable [ObjectClass σ]

section Loads

variable
  (hload : ∀ object d, good object → (ObjectClass.loadFromSource object d).Yields good breaks)

include hload

/-- An object is kept once it is loaded, so whatever is kept is good. -/
theorem safe_loadObject (place : Place) {fresh : σ} (hfresh : good fresh) (members : Dict Value) :
    Safe inv breaks setting (fun _ => True) (loadObject place fresh members) := by
  unfold loadObject
  refine safe_read_bind ?_
  have hyields := hload fresh (Dict.merged setting.base members) hfresh
  have hperform : Safe inv breaks setting (fun _ => True)
      ((ObjectClass.loadFromSource fresh (Dict.merged setting.base members)).perform place) :=
    safe_perform hinv.steady (safe_reference hinv) hyields place
  refine hperform.andThen_always (always_perform hyields place) fun loaded hloaded => ?_
  cases loaded with
  | error e => exact safe_addError_pure hinv.steady place _ _ trivial
  | ok object =>
    have hkeep : Safe inv breaks setting (fun _ => True)
        (withStore fun s => s.addObject (ObjectClass.typeName object) object) :=
      safe_modifyGet fun p hp => hinv.added p _ object (hloaded object rfl) hp
    refine hkeep.andThen fun ref => ?_
    dsimp only
    split
    · exact (safe_publish hinv _ _).andThen fun _ => safe_pure trivial
    · exact safe_pure trivial

theorem safe_instantiate (hregistry : setting.registry.Offers good) (place : Place)
    (members : Dict Value) :
    Safe inv breaks setting (fun _ => True) (instantiate place members) :=
  instantiate_cases (fun _ h => safe_read_bind h) (safe_pure trivial)
    (fun kind message => safe_addError_pure hinv.steady place kind message trivial)
    fun _ fresh _ hfresh => safe_loadObject hinv hload place (hregistry _ fresh hfresh) members

theorem safe_visit_instantiated (hregistry : setting.registry.Offers good) (v : Value)
    (place : Place) :
    Safe inv breaks setting (fun _ => True) ((instantiated : Rewrite σ).visitWithin 0 v place) := by
  rw [Rewrite.visitWithin_eq]
  refine (safe _ hinv.steady breaks).says_visitUsing (fun _ => True)
    (fun _ _ => True) descends_instantiated (fun _ _ _ _ => trivial)
    (fun _ _ _ _ => trivial) (fun place d out _ => ?_) (fun _ _ _ _ => trivial)
    (fun v place _ _ _ => safe_pure trivial) v trivial place
  exact (safe_instantiate hinv hload hregistry place out).mono fun _ _ _ => trivial

theorem safe_run_instantiated (hregistry : setting.registry.Offers good) (d : Dict Value) :
    Safe inv breaks setting (fun _ => True) ((instantiated : Rewrite σ).run 0 d) :=
  Safe.mono ((safe _ hinv.steady breaks).says_run (fun _ _ => True) id
    descends_instantiated (fun _ _ => rfl)
    fun entry _ place => safe_visit_instantiated hinv hload hregistry entry.2 place)
    fun _ _ => trivial

end Loads

/-! ### Finished trees -/

section Finishes

variable
  (hfinish : ∀ s object, good object →
    (∀ object', ObjectClass.finish s object = .ok object' → good object') ∧
    ∀ panic, ObjectClass.finish s object = .error (.panic panic) → breaks)

include hfinish

theorem safe_finishAlone (place : Place) (ref : ObjectRef) :
    Safe inv breaks setting (fun _ => True) (finishAlone place ref : Action σ Unit) := by
  unfold finishAlone
  refine safe_store_bind fun p hp => ?_
  split
  · next object hfound =>
    obtain ⟨hgood, hpanic⟩ := hfinish p.store object (hinv.objects p ref object hp hfound)
    split
    · next object' hdone =>
      exact safe_modifyGet fun q hq => hinv.finished q ref object' (hgood object' hdone) hq
    · exact safe_record hinv.steady _
    · next panic hpanics => exact safe_crash (hpanic panic hpanics) place panic
  · exact safe_pure trivial

omit hinv hfinish [ObjectClass σ] in
theorem safe_visitDependencies {visit : ObjectRef → Action σ Unit}
    (hvisit : ∀ ref, Safe inv breaks setting (fun _ => True) (visit ref))
    (dependencies : List Value) :
    Safe inv breaks setting (fun _ => True) (visitDependencies visit dependencies) := by
  induction dependencies with
  | nil => exact safe_pure trivial
  | cons dependency rest ih =>
    refine Safe.andThen (show Safe _ _ _ (fun _ => True) _ from
      safe_handles_bind fun hs => ?_) fun _ => ih
    split
    · exact hvisit _
    · exact safe_pure trivial

theorem safe_finishObject (place : Place) (levels : Nat) (ref : ObjectRef) :
    Safe inv breaks setting (fun _ => True) (finishObject place levels ref : Action σ Unit) := by
  induction levels generalizing ref with
  | zero => exact safe_pure trivial
  | succ levels ih =>
    unfold finishObject
    refine safe_store_bind fun p hp => ?_
    split
    · exact safe_pure trivial
    · next dependencies _ =>
      refine (safe_withTable hinv _).andThen fun verdict => ?_
      cases verdict with
      | finished => exact safe_pure trivial
      | cycle => exact safe_record hinv.steady _
      | wait => exact safe_withTable hinv _
      | begun =>
        refine Safe.andFinally ?_ (safe_withTable hinv _)
        exact (safe_visitDependencies ih dependencies).andThen fun _ =>
          safe_finishAlone hinv hfinish place ref

theorem safe_visit_finished (v : Value) (place : Place) :
    Safe inv breaks setting (fun _ => True) ((finished : Rewrite σ).visitWithin 0 v place) := by
  rw [Rewrite.visitWithin_eq]
  refine (safe _ hinv.steady breaks).says_visitUsing (fun _ => True)
    (fun _ _ => True) descends_finished (fun _ _ _ _ => trivial)
    (fun _ _ _ _ => trivial) (fun place d out _ => safe_pure fun _ => trivial)
    (fun _ _ _ _ => trivial) (fun v place _ _ _ => ?_) v trivial place
  cases v with
  | object ref =>
    unfold Rewrite.visitOther
    simp only [finished, bind_assoc, pure_bind]
    exact safe_store_bind fun p hp =>
      (safe_finishObject hinv hfinish place _ ref).andThen fun _ => safe_pure trivial
  | _ => exact safe_pure trivial

theorem safe_run_finished (d : Dict Value) :
    Safe inv breaks setting (fun _ => True) ((finished : Rewrite σ).run 0 d) :=
  Safe.mono ((safe _ hinv.steady breaks).says_run (fun _ _ => True) id
    descends_finished (fun _ _ => rfl)
    fun entry _ place => safe_visit_finished hinv hfinish entry.2 place) fun _ _ => trivial

end Finishes

end Objects

end Lasting

section Objects

variable [ObjectClass σ]

/-! ## Extended roots -/

section Siblings

-- the invariant is one that notes and published entries keep; objects of which it holds panic when
-- they are asked for siblings only if `breaks`
variable (hinv : Progress.Steady inv)
  (hpublish : ∀ name v, Safe inv breaks setting (fun _ => True) (publish name v))
  (hsiblings : ∀ p ref object self panic, inv p → p.store.object? ref = some object →
    ObjectClass.siblings object self = .error panic → breaks)

include hsiblings in
theorem safe_offerOf (name : String) (ref : ObjectRef) :
    Safe inv breaks setting (fun _ => True) (offerOf name ref : Action σ _) := by
  unfold offerOf
  refine safe_store_bind fun p hp => ?_
  split
  · exact safe_pure trivial
  · next object hfound =>
    split
    · exact safe_pure trivial
    · next panic hpanics =>
      exact safe_throw (hsiblings p ref object ref panic hp hfound hpanics) _

include hinv hpublish

omit [ObjectClass σ] in
theorem safe_addSibling (owner : String) (root : Dict Value) (entry : String × Value) :
    Safe inv breaks setting (fun _ => True) (addSibling owner root entry : Action σ _) := by
  unfold addSibling
  split
  · exact (safe_record hinv _).bind_pure fun _ _ => trivial
  · exact (hpublish _ _).andThen fun _ => safe_pure trivial

include hsiblings

theorem safe_addSiblings (root : Dict Value) (entry : String × Value) :
    Safe inv breaks setting (fun _ => True) (addSiblings root entry : Action σ _) := by
  unfold addSiblings
  split
  · next ref _ =>
    refine (safe_offerOf hsiblings entry.1 ref).andThen fun offer => ?_
    split
    · exact safe_foldlM _
        (fun root offered _ => safe_addSibling hinv hpublish entry.1 root offered) root
    · exact safe_pure trivial
  · exact safe_pure trivial

theorem safe_extended (root : Dict Value) :
    Safe inv breaks setting (fun _ => True) (extended root : Action σ _) :=
  safe_foldlM _ (fun root entry _ => safe_addSiblings hinv hpublish hsiblings root entry) root

end Siblings

/-- **The steps before a tree is saved.** -/
theorem safe_unsaved (hinv : Progress.Lasting good inv) (hclass : ObjectClass.Tame good breaks)
    (hregistry : setting.registry.Offers good) (dir : Path) (d : Dict Value) :
    Safe inv breaks setting (fun _ => True) (unsaved dir d : Action σ _) := by
  unfold unsaved
  refine (safe_run_anchored hinv dir d).andThen fun d => ?_
  refine (safe_run_expanded hinv d).andThen fun d => safe_handles_bind fun hs => ?_
  refine (safe_run_instantiated hinv hclass.load hregistry d).andThen fun d => ?_
  refine (safe_run_finished hinv hclass.finish d).andThen fun d => ?_
  refine Safe.bind_pure (safe_extended hinv.steady (safe_publish hinv) ?_ d) fun _ _ => trivial
  intro p ref object self panic hp hfound hpanics
  exact absurd hpanics (hclass.siblings object self panic (hinv.objects p ref object hp hfound))

end Objects

end Compile

end ResourceTree
