import ResourceTree.Compile.Action

/-!
# Rewrites — walks that rebuild a tree

A rewrite says what happens to a dictionary and to any other value; the walk does the rest. It
visits members in key order and elements in list order, keeps track of the place, and sets the
results in a new dictionary or list. A value may be visited again in changed form, one revisit
deeper; the number of revisits inside one another is bounded, which makes every walk end.

The visit of a tree is built along the tree, and revisits along the levels that are left: no visit
is defined through itself.

* `DictPlan`, `OtherPlan`, **`Rewrite`**;
* `Visit`, `Branch`; `Place.runSequential`, `Place.runFannedOut`: the members of a dictionary;
* `Rewrite.visitUsing`, **`Rewrite.visitWithin`**, **`Rewrite.run`**.
-/

namespace ResourceTree

/-- The visit of one value, at a place; `none` drops it. -/
abbrev Visit (σ : Type) := Place → Action σ (Option Value)

/-- The visit of a member, with its name. -/
abbrev Branch (σ : Type) := String × Visit σ

/-- What a rewrite does with a dictionary. -/
inductive DictPlan (σ : Type) where
  | drop
  /-- Visits another dictionary in its stead, one revisit deeper. -/
  | revisit (d : Dict Value)
  /-- Visits the members but for some, inside a scope if one is given, and goes on with the
  dictionary of the results. -/
  | members (without : List String) (scope : Option (Dict Value))
      (finish : Dict Value → Action σ (Option Value))

/-- What a rewrite does with a value that is no dictionary. -/
inductive OtherPlan (σ : Type) where
  | drop
  | keep (v : Value)
  /-- Visits the elements of a list; all else stays as it is. -/
  | elements
  /-- Visits another value in its stead, one revisit deeper. -/
  | revisit (v : Value)
  /-- Visits the members of a dictionary at the same place, one revisit deeper, and goes on with
  the dictionary of the results. -/
  | unfold (d : Dict Value) (finish : Dict Value → Action σ (Option Value))

/-- A way to rebuild a tree. -/
structure Rewrite (σ : Type) where
  onDict : Place → Dict Value → Action σ (DictPlan σ)
  onOther : Place → Value → Action σ (OtherPlan σ)
  /-- Whether the members of the dictionary at a place may be visited by tasks of their own. -/
  fansOut : Place → Bool := fun _ => false

namespace Place

variable {σ : Type}

/-- Sets the result of a member, unless it was dropped. -/
def setResult (out : Dict Value) (name : String) : Option Value → Dict Value
  | some v => out.set name v
  | none => out

/-- Visits members one after another. -/
def runSequential (place : Place) (branches : List (Branch σ)) : Action σ (Dict Value) :=
  branches.foldlM (fun out branch => do
    return setResult out branch.1 (← branch.2 (place.member branch.1))) ∅

/-- A member visited by a worker of its own. A panic inside is recorded where it arose, and drops
the member. -/
def runBranch (place : Place) (worker : Nat) (branch : Branch σ) : Action σ (Option Value) :=
  (branch.2 ((place.member branch.1).withWorker worker)).recover fun crash => do
    Action.record ⟨.instantiation, crash.path, s!"panic while compiling '{branch.1}'"⟩
    return none

/-- Visits a batch of members, in the order in which its tasks come to run: the results, each
under the number of its member. -/
def runBatch (place : Place) (order : List Nat) (branches : List (Nat × Branch σ)) :
    Action σ (List (Nat × Option Value)) :=
  (order.filterMap fun i => (branches[i]?).map (i, ·)).mapM fun (i, worker, branch) => do
    return (i, ← place.runBranch worker branch)

/-- Cuts a list into batches of `size`, the last of which may be shorter; `fuel` at most. -/
def batches {α : Type} (size : Nat) : (fuel : Nat) → List α → List (List α)
  | 0, _ => []
  | fuel + 1, xs =>
    match xs with
    | [] => []
    | _ => xs.take size :: batches size fuel (xs.drop size)

/-- Visits members as tasks, a batch at a time. Workers are numbered as the tasks are made, and
results are set in key order, whatever order the tasks came to run in. -/
def runFannedOut (place : Place) (fan : FanOut) (branches : List (Branch σ)) :
    Action σ (Dict Value) :=
  (batches (max fan.batch 1) branches.length branches).foldlM (fun out batch => do
    let workers ← batch.mapM fun _ => Action.nextWorker
    let results ← place.runBatch (fan.order workers) (workers.zip batch)
    return batch.zipIdx.foldl (fun out (branch, i) =>
      match results.lookup i with
      | some result => setResult out branch.1 result
      | none => out) out) ∅

/-- Visits elements one after another; `index` is that of the first. -/
def runElements (place : Place) : (index : Nat) → List (Visit σ) → Action σ (List Value)
  | _, [] => return []
  | index, visit :: rest => do
    let result ← visit (place.element index)
    return result.toList ++ (← place.runElements (index + 1) rest)

end Place

namespace Rewrite

variable {σ : Type}

/-- Visits members, as tasks where the setting and the rewrite allow it. -/
def runMembers (rw : Rewrite σ) (place : Place) (branches : List (Branch σ)) :
    Action σ (Dict Value) := do
  let branches := Dict.inKeyOrder branches
  match (← read).fanOut with
  | some fan =>
    if 1 < branches.length && rw.fansOut place then place.runFannedOut fan branches
    else place.runSequential branches
  | none => place.runSequential branches

/-- Carries out the plan for a dictionary. -/
def visitDict (rw : Rewrite σ) (again : Value → Visit σ) (d : Dict Value)
    (branches : List (Branch σ)) : Visit σ := fun place => do
  match ← rw.onDict place d with
  | .drop => return none
  | .revisit d => again (.dict d) place.deeper
  | .members without scope finish => do
    let members := branches.filter fun branch => !without.contains branch.1
    finish (← rw.runMembers (place.inScope scope) members)

/-- Carries out the plan for a value that is no dictionary; `elements` are the visits of the
elements of a list. -/
def visitOther (rw : Rewrite σ) (again : Value → Visit σ) (v : Value)
    (elements : Option (List (Visit σ))) : Visit σ := fun place => do
  match ← rw.onOther place v with
  | .drop => return none
  | .keep v => return some v
  | .revisit v => again v place.deeper
  | .unfold d finish => do
    finish (← rw.runMembers place.deeper (d.entries.map fun entry => (entry.1, again entry.2)))
  | .elements =>
    match elements with
    | some visits => return some (.list (← place.runElements 0 visits))
    | none => return some v

mutual

/-- The visit of a value, where revisits are made by `again`. -/
def visitUsing (rw : Rewrite σ) (again : Value → Visit σ) : Value → Visit σ
  | .dict ⟨storage, entries⟩ =>
    rw.visitDict again ⟨storage, entries⟩ (memberVisits rw again entries)
  | .list items => rw.visitOther again (.list items) (some (elementVisits rw again items))
  | v => rw.visitOther again v none

def memberVisits (rw : Rewrite σ) (again : Value → Visit σ) :
    List (String × Value) → List (Branch σ)
  | [] => []
  | (name, value) :: rest => (name, visitUsing rw again value) :: memberVisits rw again rest

def elementVisits (rw : Rewrite σ) (again : Value → Visit σ) : List Value → List (Visit σ)
  | [] => []
  | item :: rest => visitUsing rw again item :: elementVisits rw again rest

end

/-- What becomes of a revisit when no level is left. -/
def exhausted : Visit σ := fun place => Action.crash place ⟨"revisits without end"⟩

/-- **The visit of a value with so many levels of revisits left.** -/
def visitWithin (rw : Rewrite σ) : Nat → Value → Visit σ
  | 0 => rw.visitUsing fun _ => exhausted
  | levels + 1 => rw.visitUsing (visitWithin rw levels)

/-- **Rebuilds a whole dictionary**, by a worker of its own. An outcome that is no dictionary
counts as the dictionary it converts to, or as the empty one. -/
def run (rw : Rewrite σ) (levels : Nat) (d : Dict Value) : Action σ (Dict Value) := do
  let worker ← Action.nextWorker
  match ← rw.visitWithin levels (.dict d) (Place.root worker) with
  | some (.dict out) => return out
  | some v => return ((← Action.handles).toDict? v).getD ∅
  | none => return ∅

end Rewrite

end ResourceTree
