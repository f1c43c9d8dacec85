import ResourceTree.Object.Class
import ResourceTree.Value.Convert

/-!
# Things — objects that try every callback

A thing has a number, waits for the things it is to come after, keeps a value, and may be told to
fail or to panic in any of its phases. It adds entries beside itself when it is asked to.

* `Thing`, `Thing.Phase`, `check`;
* `ofSource`, `ofSaved`, `save`, `finish`, `offered`.
-/

namespace ResourceTree

/-- An object that waits for others. -/
structure Thing where
  number : Number
  after : List Value
  kept : Option Value
  /-- The phases in which the thing fails or panics, by name. -/
  failIn : String
  panicIn : String
  /-- The name of an entry that stands for ten times the number. -/
  shadow : Option String
  siblings : Dict Value
  data : Option String
  isFinished : Bool
deriving Inhabited

namespace Thing

/-- The callbacks in which a thing can be told to break off. -/
inductive Phase where
  | load
  | cache
  | save
  | finish
deriving DecidableEq

def Phase.name : Phase → String
  | load => "load"
  | cache => "cache"
  | save => "save"
  | finish => "finish"

def typeName : String := "thing"

/-- A thing before it was loaded. -/
def fresh : Thing := ⟨.zero, [], none, "", "", none, ∅, none, false⟩

/-- The error of a thing. -/
def loadError (message : String) : Failure := .error (.load typeName message)

/-- Breaks off when the thing was told to. -/
def check (t : Thing) (phase : Phase) : Except Failure Unit :=
  if t.panicIn = phase.name then .error (.panic ⟨"told to panic"⟩)
  else if t.failIn = phase.name then .error (loadError "told to fail")
  else .ok ()

def stringOf? (d : Dict Value) (name : String) : Option String :=
  (d.get? name).bind Value.asString?

def listOf (d : Dict Value) (name : String) : List Value :=
  ((d.get? name).bind Value.asList?).getD []

/-- What source and saved form have in common. -/
def ofMembers (d : Dict Value) (number : Number) : Thing :=
  { fresh with
    number
    after := listOf d "after"
    kept := d.get? "keep"
    failIn := (stringOf? d "fail").getD ""
    panicIn := (stringOf? d "panic").getD "" }

/-- Adds references to what the thing waits for. -/
def addReferences (t : Thing) (names : List String) : Loading Thing :=
  names.foldlM (fun t name => do
    let h ← Loading.addReference name
    return { t with after := t.after ++ [.resource h] }) t

/-- The full path of the data file, where the source names one that is there. -/
def findData (d : Dict Value) : Loading (Option String) :=
  match stringOf? d "data" with
  | some path => do return (← Loading.addFile path).map (·.text)
  | none => return none

/-- **A thing from source.** -/
def ofSource (d : Dict Value) : Loading Thing := do
  match (d.get? "n").bind Value.asNumber? with
  | none => Loading.ofExcept (.error (loadError "'n' must be a number"))
  | some number =>
    let t := ofMembers d number
    Loading.ofExcept (t.check .load)
    let data ← findData d
    let t ← addReferences
      { t with
        data
        shadow := stringOf? d "shadow"
        siblings := ((d.get? "siblings").bind Value.asDict?).getD ∅ }
      ((listOf d "refs").filterMap Value.asString?)
    if let some message := stringOf? d "warn" then Loading.addError message
    return t

/-- **A thing from its saved form.** -/
def ofSaved (d : Dict Value) : Except Failure Thing := do
  let t := { ofMembers d (((d.get? "n").bind Value.asNumber?).getD .zero) with
    data := stringOf? d "data" }
  t.check .cache
  return t

/-- The entry that keeps an order for the phase of loading from saved form. -/
def savedOrder (name order : String) : List (String × Value) :=
  if order = Phase.cache.name then [(name, .string order)] else []

/-- **The saved form.** -/
def save (t : Thing) : Except Failure (Dict Value) := do
  t.check .save
  return Dict.ofValues <|
    [("n", .number t.number)]
    ++ (if t.after.isEmpty then [] else [("after", .list t.after)])
    ++ t.kept.toList.map (("keep", ·))
    ++ t.data.toList.map (("data", .string ·))
    ++ savedOrder "fail" t.failIn
    ++ savedOrder "panic" t.panicIn

/-- Finishes a thing, where `isReady` tells which values are finished things. -/
def finish (t : Thing) (isReady : Value → Bool) : Except Failure Thing := do
  t.check .finish
  if t.after.all isReady then return { t with isFinished := true }
  else throw (loadError "dependency finished late")

/-- The entries that a thing adds beside itself. An entry `self` that is true stands for the
thing. -/
def offered (t : Thing) (self : ObjectRef) : Option (Dict Value) :=
  let entries := match t.shadow with
    | some name => t.siblings.set name (.number (t.number.mul (.ofNat 10)))
    | none => t.siblings
  let entries := match entries.get? "self" with
    | some (.bool true) => entries.set "self" (.object self)
    | _ => entries
  if entries.isEmpty then none else some entries

end Thing

end ResourceTree
