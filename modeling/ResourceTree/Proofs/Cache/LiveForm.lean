import Mathlib.Logic.Relation
import ResourceTree.Cache.Load

/-!
# Live forms

A conversion asks for handles and for places for objects, so its outcome depends on what it is
answered. A value is a live form of a compiled one when some conversion that was answered in the
given ways ends with it.

* `Answers`: the answers that requests may have got;
* `Conversion.Leads`, `Conversion.Ends`: what conversions come to by answers;
* **`LiveForm`**: what a name has once its compiled value was made live;
* `liveForm_none`: an absent name has nothing.
-/

namespace ResourceTree

/-- The answers that the requests of conversions may have got. -/
structure Answers (σ : Type) where
  handle : String → Handle → Prop
  object : σ → ObjectRef → Prop

variable {σ α : Type} {a b : Answers σ}

namespace Conversion

variable {x y : Conversion σ α}

/-- A request is answered. -/
inductive Answered (a : Answers σ) : Conversion σ α → Conversion σ α → Prop where
  | handle (name : String) (next : Handle → Conversion σ α) (h : Handle)
      (hanswer : a.handle name h) : Answered a (.handle name next) (next h)
  | object (item : σ) (next : ObjectRef → Conversion σ α) (ref : ObjectRef)
      (hanswer : a.object item ref) : Answered a (.object item next) (next ref)

/-- A conversion comes to another once some of its requests are answered. -/
def Leads (a : Answers σ) : Conversion σ α → Conversion σ α → Prop :=
  Relation.ReflTransGen (Answered a)

/-- A conversion has an outcome once all its requests are answered. -/
def Ends (a : Answers σ) (x : Conversion σ α) (outcome : Except Failure α) : Prop :=
  ∃ rest, Leads a x rest ∧ rest.outcome? = some outcome

theorem Leads.mono (hhandle : ∀ name h, a.handle name h → b.handle name h)
    (hobject : ∀ item ref, a.object item ref → b.object item ref) (hl : Leads a x y) :
    Leads b x y := by
  refine Relation.ReflTransGen.mono (fun u v huv => ?_) _ _ hl
  cases huv with
  | handle name next h hanswer => exact .handle name next h (hhandle name h hanswer)
  | object item next ref hanswer => exact .object item next ref (hobject item ref hanswer)

/-- What has an outcome asks for nothing. -/
theorem eq_of_leads {outcome : Except Failure α} (hx : x.outcome? = some outcome)
    (hl : Leads a x y) : y = x := by
  induction hl using Relation.ReflTransGen.head_induction_on with
  | refl => rfl
  | head hstep => cases hstep <;> cases hx

end Conversion

namespace Cache

/-- The value that an outcome gives a handle. -/
def liveValue : Except Failure Value → Value
  | .ok v => v
  | .error _ => .null

theorem outcomeOf_fst (name : String) (again : Bool) (outcome : Except Failure Value) :
    (outcomeOf name again outcome).1 = liveValue outcome := by
  cases outcome <;> rfl

end Cache

variable [ObjectClass σ] {registry : Registry σ} {name : String} {stored : Option Value} {v : Value}

/-- A value is what a name has once the value that is stored for it was made live: nothing, when
there is none or when making it live failed. -/
def LiveForm (a : Answers σ) (registry : Registry σ) (name : String) (stored : Option Value)
    (v : Value) : Prop :=
  ∃ outcome, (Conversion.ofStored registry name stored).Ends a outcome ∧
    v = Cache.liveValue outcome

theorem LiveForm.mono (hhandle : ∀ name h, a.handle name h → b.handle name h)
    (hobject : ∀ item ref, a.object item ref → b.object item ref)
    (hl : LiveForm a registry name stored v) : LiveForm b registry name stored v := by
  obtain ⟨outcome, ⟨rest, hleads, houtcome⟩, hv⟩ := hl
  exact ⟨outcome, ⟨rest, hleads.mono hhandle hobject, houtcome⟩, hv⟩

theorem liveForm_none : LiveForm a registry name none v ↔ v = .null := by
  constructor
  · rintro ⟨outcome, ⟨rest, hleads, houtcome⟩, rfl⟩
    rw [Conversion.eq_of_leads rfl hleads] at houtcome
    cases houtcome
    rfl
  · rintro rfl
    exact ⟨_, ⟨_, .refl, rfl⟩, rfl⟩

end ResourceTree
