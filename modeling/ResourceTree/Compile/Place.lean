import ResourceTree.Value.Path

/-!
# Places — where a walk over a tree is

* `Place`: the path from the root, the scopes of named values, the depth of revisits, and the
  worker that walks this branch;
* `isRoot`, `rootKey?`, `pathText`;
* `member`, `element`, `deeper`, `withWorker`, `inScope`: the places one step on;
* **`Place.lookup`**: a named value, innermost scope first.
-/

namespace ResourceTree

/-- Where a walk is, and what it sees from there. -/
structure Place where
  /-- The steps from the root, the last one first. -/
  reversedPath : List Step
  /-- The innermost scope first. -/
  scopes : List (Dict Value)
  nesting : Nat
  worker : Nat

namespace Place

def root (worker : Nat) : Place := ⟨[], [], 0, worker⟩

def isRoot (p : Place) : Bool := p.reversedPath.isEmpty

/-- The name of the root entry, directly below the root. -/
def rootKey? (p : Place) : Option String :=
  match p.reversedPath with
  | [.member name] => some name
  | _ => none

def path (p : Place) : List Step := p.reversedPath.reverse

/-- The path as diagnostics show it; empty at the root. -/
def pathText (p : Place) : String := Step.render p.path

def member (p : Place) (name : String) : Place :=
  { p with reversedPath := .member name :: p.reversedPath }

def element (p : Place) (index : Nat) : Place :=
  { p with reversedPath := .element index :: p.reversedPath }

/-- The same place, one revisit deeper. -/
def deeper (p : Place) : Place := { p with nesting := p.nesting + 1 }

/-- The same place, walked by another worker. -/
def withWorker (p : Place) (worker : Nat) : Place := { p with worker }

/-- The same place, inside one more scope if there is one. -/
def inScope (p : Place) (scope : Option (Dict Value)) : Place :=
  { p with scopes := scope.toList ++ p.scopes }

/-- **The value that a path names**, in the innermost scope that has it. -/
def lookup (hs : Handles) (p : Place) (path : String) : Option Value :=
  p.scopes.findSome? fun scope => hs.findPath scope path

end Place

end ResourceTree
