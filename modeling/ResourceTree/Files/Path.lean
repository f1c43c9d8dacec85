import ResourceTree.Text.Split

/-!
# File paths — texts read as components

A path is a text. Its components are the root, a leading `.`, every `..`, and the names; repeated
slashes and other `.` parts say nothing. Two paths with the same components are the same member of
a set, and sets of paths are ordered by components: the root, then `.`, then `..`, then names.

* `Path`, `Path.Component`, `Path.components`;
* `join`, `parent?`, `fileName?`, `stem?`, `isAbsolute`;
* **`normalize`**: without `.` and `..`, purely by the text;
* `Path.insertSorted`: insertion into an ordered set.
-/

namespace ResourceTree

/-- A file path. -/
structure Path where
  text : String
deriving DecidableEq, Repr, Inhabited

namespace Path

/-- A part of a path that has a meaning. -/
inductive Component where
  | root
  | current
  | parent
  | normal (name : String)
deriving DecidableEq, Repr

def isAbsolute (p : Path) : Bool := p.text.toList.head? = some '/'

/-- The component that a part after the first stands for. -/
def componentOf (part : List Char) : Option Component :=
  if part = [] || part = ['.'] then none
  else if part = ['.', '.'] then some .parent
  else some (.normal (String.ofList part))

/-- The components of a path. -/
def components (p : Path) : List Component :=
  match Text.splitAt '/' p.text.toList with
  | [] => []
  | first :: rest =>
    let others := rest.filterMap componentOf
    if p.isAbsolute then .root :: others
    else if first = ['.'] then .current :: others
    else (componentOf first).toList ++ others

/-! ## Order -/

/-- The place of a component among components of different sorts. -/
def Component.rank : Component → Nat
  | .root => 0
  | .current => 1
  | .parent => 2
  | .normal _ => 3

def Component.order (a b : Component) : Ordering :=
  match a, b with
  | .normal x, .normal y => compare x y
  | a, b => compare a.rank b.rank

/-- The order of runs of components, a beginning before what continues it. -/
def orderComponents : List Component → List Component → Ordering
  | [], [] => .eq
  | [], _ :: _ => .lt
  | _ :: _, [] => .gt
  | a :: as, b :: bs => (a.order b).then (orderComponents as bs)

def order (p q : Path) : Ordering := orderComponents p.components q.components

/-- Adds a path to an ordered set; a path with the same components stays as it is. -/
def insertSorted (p : Path) : List Path → List Path
  | [] => [p]
  | q :: rest =>
    match p.order q with
    | .lt => p :: q :: rest
    | .eq => q :: rest
    | .gt => q :: insertSorted p rest

/-! ## Taking apart and putting together -/

/-- The path of `text` seen from a directory; an absolute one stands for itself. -/
def join (dir : Path) (text : String) : Path :=
  if (Path.mk text).isAbsolute then ⟨text⟩
  else if dir.text.isEmpty || dir.text.toList.getLast? = some '/' then ⟨dir.text ++ text⟩
  else ⟨dir.text ++ "/" ++ text⟩

/-- Parts without the meaningless ones at the end. -/
def dropBlankEnd (parts : List (List Char)) : List (List Char) :=
  (parts.reverse.dropWhile fun part => part = [] || part = ['.']).reverse

/-- The path without its last component; the root and the empty path have no parent. -/
def parent? (p : Path) : Option Path :=
  let cs := p.text.toList
  -- the root or a leading `.`, and the body after it
  let leadsCurrent := match cs with
    | ['.'] => true
    | '.' :: '/' :: _ => true
    | _ => false
  let start := if p.isAbsolute || leadsCurrent then 1 else 0
  let parts := dropBlankEnd (Text.splitAt '/' (cs.drop start))
  if parts.isEmpty then if leadsCurrent then some ⟨""⟩ else none
  else
    let kept := dropBlankEnd parts.dropLast
    some ⟨String.ofList (cs.take start ++ ['/'].intercalate kept)⟩

/-- The last component, when it is a name. -/
def fileName? (p : Path) : Option String :=
  match p.components.getLast? with
  | some (.normal name) => some name
  | _ => none

/-- A file name without what follows its last dot; a dot that begins the name does not count. -/
def stemOf (name : String) : String :=
  let reversed := name.toList.reverse
  let before := (reversed.dropWhile (· ≠ '.')).drop 1
  if before.isEmpty then name else String.ofList before.reverse

def stem? (p : Path) : Option String := p.fileName?.map stemOf

/-! ## Normal form -/

/-- One component more: a name is added, `..` takes the last name away. -/
def pushComponent (names : List String) : Component → List String
  | .normal name => names ++ [name]
  | .parent => names.dropLast
  | .root | .current => names

/-- The names that are left when `.` and `..` are carried out. -/
def normalNames (p : Path) : List String := p.components.foldl pushComponent []

/-- The path of a run of names. -/
def ofNames (absolute : Bool) (names : List String) : Path :=
  ⟨(if absolute then "/" else "") ++ "/".intercalate names⟩

/-- **The path without `.` and `..`**, by its text alone. -/
def normalize (p : Path) : Path := ofNames p.isAbsolute p.normalNames

end Path

end ResourceTree
