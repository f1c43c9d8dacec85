/-!
# Events — what a cache tells about its loads

* `Event`, `Event.name`, `Event.isFailed`;
* `EventBuffer`: `push`, `drain`.
-/

namespace ResourceTree

/-- A completed load. -/
inductive Event where
  /-- A first load. -/
  | loaded (name : String)
  | reloaded (name : String)
  | failed (name error : String)
deriving DecidableEq, Repr

namespace Event

def name : Event → String
  | loaded name => name
  | reloaded name => name
  | failed name _ => name

def label : Event → String
  | loaded _ => "loaded"
  | reloaded _ => "reloaded"
  | failed .. => "failed"

/-- Why a load failed. -/
def error? : Event → Option String
  | failed _ error => some error
  | _ => none

def isFailed : Event → Bool
  | failed .. => true
  | _ => false

end Event

/-- Events that were not taken yet, oldest first. -/
structure EventBuffer where
  events : List Event
deriving DecidableEq, Repr, Inhabited

namespace EventBuffer

def empty : EventBuffer := ⟨[]⟩

def push (b : EventBuffer) (e : Event) : EventBuffer := ⟨b.events ++ [e]⟩

/-- Takes all events. -/
def drain (b : EventBuffer) : List Event × EventBuffer := (b.events, empty)

def size (b : EventBuffer) : Nat := b.events.length

def isEmpty (b : EventBuffer) : Bool := b.events.isEmpty

end EventBuffer

end ResourceTree
