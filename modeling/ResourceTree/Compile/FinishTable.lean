/-!
# The finish table — who finishes which object, and who waits for whom

Objects and workers are numbers. An object is finished by the one worker that began it. A worker
that needs an object which another one is finishing waits for it, unless that would close a ring of
waiting workers.

* `FinishTable`, `Verdict`;
* `closesRing`: whether waiting would close a ring;
* the three steps **`start`**, **`finish`**, **`stopWaiting`**.
-/

namespace ResourceTree

/-- What is finished, what is being finished by whom, and which worker waits for which object. -/
structure FinishTable where
  finished : List Nat
  inProgress : List (Nat × Nat)
  waiting : List (Nat × Nat)

/-- What a worker is to do about an object. -/
inductive Verdict where
  | finished
  | begun
  | wait
  /-- Waiting would never end. -/
  | cycle
deriving DecidableEq, Repr

namespace FinishTable

def empty : FinishTable := ⟨[], [], []⟩

/-- The worker that finishes what the given worker waits for. -/
def awaited? (t : FinishTable) (worker : Nat) : Option Nat :=
  (t.waiting.lookup worker).bind fun object => t.inProgress.lookup object

/-- Whether following what workers wait for leads from one worker to another in so many steps. -/
def leadsTo (t : FinishTable) (worker : Nat) : Nat → Nat → Bool
  | 0, _ => false
  | steps + 1, current =>
    current == worker ||
      match t.awaited? current with
      | some next => t.leadsTo worker steps next
      | none => false

/-- Whether the worker would wait for itself if it waited for `owner`. Every step comes from
another waiting worker, so their number bounds the steps. -/
def closesRing (t : FinishTable) (worker owner : Nat) : Bool :=
  t.leadsTo worker (t.waiting.length + 1) owner

/-- **A worker asks for an object.** -/
def start (t : FinishTable) (object worker : Nat) : Verdict × FinishTable :=
  if t.finished.contains object then (.finished, t)
  else
    match t.inProgress.lookup object with
    | some owner =>
      if t.closesRing worker owner then (.cycle, t)
      else (.wait, { t with waiting := (worker, object) :: t.waiting })
    | none => (.begun, { t with inProgress := (object, worker) :: t.inProgress })

/-- **The object is finished**; whoever waits for it may go on. -/
def finish (t : FinishTable) (object : Nat) : FinishTable :=
  { t with
    finished := object :: t.finished
    inProgress := t.inProgress.filter fun entry => entry.1 ≠ object }

/-- **The worker goes on** after it waited. -/
def stopWaiting (t : FinishTable) (worker : Nat) : FinishTable :=
  { t with waiting := t.waiting.filter fun entry => entry.1 ≠ worker }

end FinishTable

end ResourceTree
