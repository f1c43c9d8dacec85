import ResourceTree.Text.Split
import ResourceTree.Value.Children

/-!
# Value paths — where a node lies in a tree

A path is written `/sprites/frames[2]/x`: names after slashes, list indices in brackets behind
them. A slash more or less between names makes no difference. An index may have blanks around it
and a plus sign before it, and has to fit in 64 bits.

* `Step`, `Step.render`: one step, and how a path is written;
* `Step.parsePath?`: the steps that a text names;
* **`Handles.findPath`**: the node at a path below a dictionary.
-/

namespace ResourceTree

/-- One step down a tree. -/
inductive Step where
  | member (name : String)
  | element (index : Nat)
deriving DecidableEq, Repr

namespace Step

def text : Step → String
  | member name => "/" ++ name
  | element index => "[" ++ toString index ++ "]"

/-- How a path is written. -/
def render (path : List Step) : String := String.join (path.map text)

/-- The index that a text between brackets names. -/
def parseIndex? (cs : List Char) : Option Nat :=
  let trimmed := Text.trim cs
  let digits := match trimmed with
    | '+' :: rest => rest
    | cs => cs
  if digits.isEmpty || !digits.all Char.isDigit then none
  else
    let n := Number.digitsValue digits
    if n < Nat.pow 2 64 then some n else none

/-- The indices of a run of bracketed texts; `fuel` brackets at most. -/
def parseIndices? : Nat → List Char → Option (List Step)
  | _, [] => some []
  | 0, _ :: _ => none
  | fuel + 1, cs =>
    match cs with
    | '[' :: rest => do
      let inner := rest.takeWhile (· ≠ ']')
      match rest.dropWhile (· ≠ ']') with
      | [] => none
      | _ :: rest => do
        let i ← parseIndex? inner
        return element i :: (← parseIndices? fuel rest)
    | _ => none

/-- The steps of one part between slashes. -/
def parseSegment? (cs : List Char) : Option (List Step) := do
  let head := cs.takeWhile (· ≠ '[')
  let tail := cs.dropWhile (· ≠ '[')
  let indices ← parseIndices? tail.length tail
  return if head.isEmpty then indices else member (String.ofList head) :: indices

/-- **The steps that a text names.** -/
def parsePath? (path : String) : Option (List Step) :=
  List.flatten <$> ((Text.splitAt '/' path.toList).filter (!·.isEmpty)).mapM parseSegment?

end Step

namespace Handles

/-- The child that one step leads to. -/
def child? (hs : Handles) (v : Value) : Step → Option Value
  | .member name => hs.namedChild? v name
  | .element index => hs.indexedChild? v index

/-- The node that steps lead to. -/
def descend (hs : Handles) (v : Value) (path : List Step) : Option Value :=
  path.foldlM hs.child? v

/-- **The node at a path below a dictionary.** The empty path leads nowhere. -/
def findPath (hs : Handles) (d : Dict Value) (path : String) : Option Value :=
  match Step.parsePath? path with
  | some (step :: rest) => hs.descend (.dict d) (step :: rest)
  | _ => none

end Handles

end ResourceTree
