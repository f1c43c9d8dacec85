import Mathlib.Logic.Function.Basic
import ResourceTree.Compile.Finish
import ResourceTree.Proofs.Finish.Ring

/-!
# Workers that finish objects together

Any number of workers walk over parts of a tree. Each one finishes the objects it meets, and first
those that they depend on; it goes down as `finishObject` does, but between any two of its steps on
the finish table the others may take steps of their own.

* `DependencyGraph`: what objects depend on, which stays as it is;
* `Worker`: the objects that a worker has yet to look at, those that it has begun, and its `Phase`;
* `Team`: the workers, their table, and what they recorded;
* `Team.Step`, **`Team.Reachable`**: every order of steps;
* `Worker.Completed`, `Team.Blocked`.

Three fields of a team only record what happened, and no step looks at them: `cycles`, `called` and
`returned`.
-/

namespace ResourceTree

/-- The objects that an object depends on, by its number; nothing if it needs no finishing. -/
abbrev DependencyGraph := Nat → Option (List ObjectRef)

/-- An object that was begun, and what it depends on that was not looked at. -/
structure Frame where
  object : ObjectRef
  todo : List ObjectRef

/-- The object that was begun last, by its number. -/
def innermost? (stack : List Frame) : Option Nat := stack.head?.map fun frame => frame.object.id

/-- Where a worker is between two steps. -/
inductive Phase where
  /-- It looks at what comes next. -/
  | walking
  /-- It waits until an object is finished. -/
  | waiting (object : Nat)
  /-- It has seen the signal of the object it waited for. -/
  | woken (object : Nat)
  /-- The callback that finishes its innermost object runs. -/
  | calling
  /-- That callback has returned. -/
  | ending
  /-- An object is finished, and its signal is not set. -/
  | announcing (object : Nat)
deriving DecidableEq

/-- The object that a worker waits for, or has waited for. -/
def Phase.awaits : Phase → Option Nat
  | waiting object => some object
  | woken object => some object
  | _ => none

/-- A worker; its innermost object comes first. -/
structure Worker where
  /-- The objects of the tree that it has yet to look at, and their places. -/
  roots : List (Place × ObjectRef)
  /-- The place of the last one that it looked at. -/
  place : Place
  stack : List Frame
  phase : Phase

namespace Worker

/-- The numbers of the objects that a worker has begun. -/
def begun (x : Worker) : List Nat := x.stack.map fun frame => frame.object.id

/-- The worker takes the next object that it has to look at. -/
inductive Takes (x : Worker) (ref : ObjectRef) : Worker → Prop where
  | dependency (frame : Frame) (todo : List ObjectRef) (below : List Frame)
      (hphase : x.phase = .walking) (hstack : x.stack = frame :: below)
      (htodo : frame.todo = ref :: todo) :
      Takes x ref { x with stack := { frame with todo := todo } :: below }
  | root (place : Place) (roots : List (Place × ObjectRef)) (hphase : x.phase = .walking)
      (hstack : x.stack = []) (hroots : x.roots = (place, ref) :: roots) :
      Takes x ref { x with roots := roots, place := place }

/-- Nothing is left to do. -/
structure Completed (x : Worker) : Prop where
  roots : x.roots = []
  stack : x.stack = []
  phase : x.phase = .walking

end Worker

/-- Workers that share one table. -/
structure Team where
  table : FinishTable
  workers : Nat → Worker
  /-- The objects whose signals are set. -/
  signalled : List Nat
  errors : Array Diagnostic
  /-- The objects that nobody could wait for, each with the object that depends on it, if any. -/
  cycles : List (Option Nat × Nat)
  /-- The objects whose callbacks were called, and those whose callbacks returned, newest first. -/
  called : List Nat
  returned : List Nat

namespace Team

/-- Nothing was looked at; every worker is given a part of the tree. -/
def start (roots : Nat → List (Place × ObjectRef)) : Team :=
  ⟨.empty, fun w => ⟨roots w, .root w, [], .walking⟩, [], #[], [], [], []⟩

/-- The team with another state of one worker. -/
def set (s : Team) (w : Nat) (x : Worker) : Team :=
  { s with workers := Function.update s.workers w x }

/-- The diagnostics, with that of a callback that answered with an error. -/
def noted (errors : Array Diagnostic) (place : Place) (error : Option String) : Array Diagnostic :=
  match error with
  | some message => errors.push ⟨.instantiation, place.pathText, message⟩
  | none => errors

/-- A step of the worker `w`. -/
inductive Step (g : DependencyGraph) (w : Nat) (s : Team) : Team → Prop where
  /-- The next object needs no finishing. -/
  | skip (ref : ObjectRef) (x : Worker) (htakes : (s.workers w).Takes ref x)
      (hnone : g ref.id = none) : Step g w s (s.set w x)
  | finished (ref : ObjectRef) (x : Worker) (dependencies : List ObjectRef)
      (t : FinishTable) (htakes : (s.workers w).Takes ref x)
      (hsome : g ref.id = some dependencies) (hstart : s.table.start ref.id w = (.finished, t)) :
      Step g w s (set { s with table := t } w x)
  /-- Waiting would never end. -/
  | cycle (ref : ObjectRef) (x : Worker) (dependencies : List ObjectRef)
      (t : FinishTable) (htakes : (s.workers w).Takes ref x)
      (hsome : g ref.id = some dependencies) (hstart : s.table.start ref.id w = (.cycle, t)) :
      Step g w s (set { s with
        table := t
        errors := s.errors.push (Compile.selfDependency x.place ref)
        cycles := (innermost? x.stack, ref.id) :: s.cycles } w x)
  | wait (ref : ObjectRef) (x : Worker) (dependencies : List ObjectRef)
      (t : FinishTable) (htakes : (s.workers w).Takes ref x)
      (hsome : g ref.id = some dependencies) (hstart : s.table.start ref.id w = (.wait, t)) :
      Step g w s (set { s with table := t } w { x with phase := .waiting ref.id })
  | begin (ref : ObjectRef) (x : Worker) (dependencies : List ObjectRef)
      (t : FinishTable) (htakes : (s.workers w).Takes ref x)
      (hsome : g ref.id = some dependencies) (hstart : s.table.start ref.id w = (.begun, t)) :
      Step g w s (set { s with table := t } w { x with stack := ⟨ref, dependencies⟩ :: x.stack })
  /-- The signal that the worker waits for is set. -/
  | wake (object : Nat) (hphase : (s.workers w).phase = .waiting object)
      (hset : object ∈ s.signalled) :
      Step g w s (s.set w { s.workers w with phase := .woken object })
  | goOn (object : Nat) (hphase : (s.workers w).phase = .woken object) :
      Step g w s (set { s with table := s.table.stopWaiting w } w
        { s.workers w with phase := .walking })
  /-- All that the innermost object depends on was looked at. -/
  | call (frame : Frame) (below : List Frame) (hphase : (s.workers w).phase = .walking)
      (hstack : (s.workers w).stack = frame :: below) (htodo : frame.todo = []) :
      Step g w s (set { s with called := frame.object.id :: s.called } w
        { s.workers w with phase := .calling })
  | return (frame : Frame) (below : List Frame) (error : Option String)
      (hphase : (s.workers w).phase = .calling) (hstack : (s.workers w).stack = frame :: below) :
      Step g w s (set { s with
        errors := noted s.errors (s.workers w).place error
        returned := frame.object.id :: s.returned } w { s.workers w with phase := .ending })
  | finish (frame : Frame) (below : List Frame)
      (hphase : (s.workers w).phase = .ending) (hstack : (s.workers w).stack = frame :: below) :
      Step g w s (set { s with table := s.table.finish frame.object.id } w
        { s.workers w with stack := below, phase := .announcing frame.object.id })
  | announce (object : Nat) (hphase : (s.workers w).phase = .announcing object) :
      Step g w s (set { s with signalled := object :: s.signalled } w
        { s.workers w with phase := .walking })

/-- The states that workers may come to from their start, whatever the order of their steps. -/
inductive Reachable (g : DependencyGraph) (roots : Nat → List (Place × ObjectRef)) :
    Team → Prop where
  | start : Reachable g roots (start roots)
  | step {s s' : Team} {w : Nat} (hs : Reachable g roots s) (hstep : Step g w s s') :
      Reachable g roots s'

/-- The worker waits for a signal that is not set. -/
def Blocked (s : Team) (w : Nat) : Prop :=
  ∃ object, (s.workers w).phase = .waiting object ∧ object ∉ s.signalled

/-! ## A ring of two objects -/

/-- Two objects that depend on each other. -/
def pair : DependencyGraph := fun o =>
  if o = 0 then some [⟨1, "B"⟩] else if o = 1 then some [⟨0, "A"⟩] else none

/-- Two workers are given one of the objects each. -/
def pairRoots : Nat → List (Place × ObjectRef) := fun w =>
  if w = 0 then [(.root 0, ⟨0, "A"⟩)] else if w = 1 then [(.root 1, ⟨1, "B"⟩)] else []

end Team

end ResourceTree
