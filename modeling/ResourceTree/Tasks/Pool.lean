import ResourceTree.Object.Class

/-!
# Task pools — results in the order of spawning

Tasks run on a fixed number of threads, and results are joined in the order in which the tasks were
spawned, whatever order they end in. A pool counts the tasks it was given.

* `Pool`, `Pool.new`: a pool has at least one thread;
* `spawn`, `spawnDetached`, **`joinAll`**.
-/

namespace ResourceTree

/-- A pool whose tasks give an `α`: its threads, the results that are due, oldest first, and the
number of tasks it was given. -/
structure Pool (α : Type) where
  threads : Nat
  due : List α
  spawned : Nat

namespace Pool

variable {α β : Type}

/-- A pool without threads would never end a task. -/
def new (threads : Nat) : Except Panic (Pool α) :=
  if threads = 0 then .error ⟨"TaskPool must have at least one thread"⟩ else .ok ⟨threads, [], 0⟩

/-- Gives the pool a task. -/
def spawn (pool : Pool α) (task : Unit → α) : Pool α :=
  { pool with due := pool.due ++ [task ()], spawned := pool.spawned + 1 }

/-- Gives the pool a task whose result nobody asks for. -/
def spawnDetached (pool : Pool α) : Pool α := { pool with spawned := pool.spawned + 1 }

/-- The results that are due, in the order of spawning. -/
def joinAll (pool : Pool α) : List α × Pool α := (pool.due, { pool with due := [] })

/-- Gives the pool one more task and waits for its result. -/
def blockOn (pool : Pool α) (task : Unit → β) : β × Pool α := (task (), pool.spawnDetached)

end Pool

end ResourceTree
