import ResourceTree.Compile.Rewrite
import ResourceTree.Reserved
import ResourceTree.Value.Convert

/-!
# Commands — a rewrite that is told what to do by the tree

Numbers are doubled and `false` is dropped. A dictionary may bring a scope for all below it and ask
for the kind it is to become. A string `command:argument` asks for what the walk knows at its
place.

* `Command`, `Command.ofText?`; `Spread`: which dictionaries are spread over tasks;
* `plain`: the rewrite that changes nothing; **`commands`**.
-/

namespace ResourceTree.Example

/-- What a string asks for. -/
inductive Command where
  /-- Records a diagnostic. -/
  | err
  /-- The path of the place. -/
  | path
  /-- The root entry that the place is. -/
  | root
  | isRoot
  | null
  | drop
  /-- A named value as it is. -/
  | lookup
  /-- A named value, visited. -/
  | visit
  | nesting
  /-- The path of a member. -/
  | named
  /-- A handle. -/
  | ref
  | panic
deriving DecidableEq

/-- The command with a name. -/
def Command.ofName? : String → Option Command
  | "err" => some err
  | "path" => some path
  | "root" => some root
  | "is_root" => some isRoot
  | "null" => some null
  | "drop" => some drop
  | "lookup" => some lookup
  | "visit" => some visit
  | "nesting" => some nesting
  | "named" => some named
  | "ref" => some ref
  | "panic" => some panic
  | _ => none

/-- The command in a text, and its argument after the first colon. -/
def Command.ofText? (text : String) : Option (Command × String) :=
  let cs := text.toList
  (ofName? (String.ofList (cs.takeWhile (· ≠ ':')))).map fun command =>
    (command, String.ofList ((cs.dropWhile (· ≠ ':')).drop 1))

/-- Which dictionaries are spread over tasks. -/
inductive Spread where
  | never
  | root
  | all
deriving DecidableEq

def Spread.ofName : String → Spread
  | "root" => root
  | "all" => all
  | _ => never

def Spread.allows : Spread → Place → Bool
  | never, _ => false
  | root, place => place.isRoot
  | all, _ => true

variable {σ : Type}

/-- The rewrite that keeps every value. -/
def plain : Rewrite σ where
  onDict _ _ := return .members [] none fun out => return some (.dict out)
  onOther _ _ := return .elements

/-- Values are visited so deep inside one another. -/
def visitLimit : Nat := 8

/-- Carries out a command. -/
def runCommand (place : Place) (text argument : String) : Command → Action σ (OtherPlan σ)
  | .err => do
    Action.addError place .resolution argument
    return .keep (.string text)
  | .path => return .keep (.string place.pathText)
  | .root => return .keep (.string (place.rootKey?.getD "<none>"))
  | .isRoot => return .keep (.bool place.isRoot)
  | .null => return .keep .null
  | .drop => return .drop
  | .lookup => do
    match place.lookup (← Action.handles) argument with
    | some v => return .keep v
    | none => return .drop
  | .visit => do
    match place.lookup (← Action.handles) argument with
    | some v => return if visitLimit ≤ place.nesting then .keep (.string "<deep>") else .revisit v
    | none => return .drop
  | .nesting => return .keep (.ofNat place.nesting)
  | .named => return .keep (.string (place.member argument).pathText)
  | .ref => do return .keep (.resource (← Action.reference argument))
  | .panic => Action.crash place ⟨"told to panic"⟩

/-- The kind that a dictionary asks to become. -/
def recast (hs : Handles) (asked : Option String) (out : Dict Value) : Option Value :=
  match asked with
  | none | some "dict" => some (.dict out)
  | some "none" => none
  | some "list" => some (.list [.dict out])
  | some "number" => some (.ofNat 1)
  | some name => (Kind.ofName? name).bind (hs.convert (.dict out))

/-- The names of the members that a dictionary has for the walk. -/
def scopeName : String := "scope"

def asName : String := "as"

/-- **The rewrite that carries out commands.** -/
def commands (spread : Spread) : Rewrite σ where
  onDict _ d := do
    let asked := (d.get? asName).bind Value.asString?
    return .members [scopeName, asName] ((d.get? scopeName).bind Value.asDict?) fun out => do
      return recast (← Action.handles) asked out
  onOther place v :=
    match v with
    | .number n => return .keep (.number (n.add n))
    | .bool false => return .drop
    | .string text =>
      match Command.ofText? text with
      | some (command, argument) => runCommand place text argument command
      | none => return .keep v
    | _ => return .elements
  fansOut := spread.allows

end ResourceTree.Example
