import ResourceTree.Example.SpriteSheet
import ResourceTree.Example.Thing

/-!
# Items — the objects of the examples

* `Item`, its `ObjectClass`;
* `Item.registry`: all classes; `Item.fresh?`: one class by name.
-/

namespace ResourceTree

/-- An object of one of the example classes. -/
inductive Item where
  | thing (t : Thing)
  | probe (p : Probe)
  | spriteSheet (s : SpriteSheet)

namespace Item

def typeName : Item → String
  | thing _ => Thing.typeName
  | probe _ => Probe.typeName
  | spriteSheet _ => SpriteSheet.typeName

/-- The thing that an item is. -/
def thing? : Item → Option Thing
  | thing t => some t
  | _ => none

/-- Whether a value is a finished thing, or a handle that stands for one now. -/
def isFinishedThing (store : Store Item) (v : Value) : Bool :=
  let ref? := match v with
    | .object ref => some ref
    | .resource h => (store.handles.value h).asObject?
    | _ => none
  ((ref?.bind store.object?).bind thing?).any (·.isFinished)

/-- What a handle shows: the values that a thing waits for, or else its own value. -/
def shown (store : Store Item) (h : Handle) : Value :=
  let v := store.handles.value h
  match (v.asObject?.bind store.object?).bind thing? with
  | some t => .list t.after
  | none => v

/-- The values that an item keeps in use. -/
def holds : Item → List Value
  | thing t => .dict t.siblings :: (t.kept.toList ++ t.after)
  | probe p => [.dict p.source]
  | spriteSheet s => s.fallback.toList

instance : ObjectClass Item where
  typeName := typeName
  loadFromSource item d := match item with
    | thing _ => do return thing (← Thing.ofSource d)
    | probe _ => return probe ⟨d⟩
    | spriteSheet _ => do return spriteSheet (← SpriteSheet.ofSource d)
  loadFromCache item d := match item with
    | thing _ => thing <$> Thing.ofSaved d
    | probe _ => .ok (probe ⟨d⟩)
    | spriteSheet _ => .ok (spriteSheet (.ofSaved d))
  saveToCache
    | thing t => t.save
    | probe p => .ok p.save
    | spriteSheet s => .ok s.save
  dependencies
    | thing t => some t.after
    | _ => none
  finish store
    | thing t => thing <$> t.finish (isFinishedThing store)
    | item => .ok item
  siblings item ref := match item with
    | thing t => .ok (t.offered ref)
    | _ => .ok none
  holds := holds

/-- A fresh item of a class. The class `alias` makes things. -/
def fresh? : String → Option Item
  | "thing" | "alias" => some (thing .fresh)
  | "probe" => some (probe .fresh)
  | "sprite_sheet" => some (spriteSheet .fresh)
  | _ => none

/-- The names of the classes. -/
def classNames : List String := ["thing", "alias", "probe", "sprite_sheet"]

/-- All classes, under their names. -/
def registry : Registry Item :=
  classNames.foldl (fun r name =>
    match fresh? name with
    | some item => r.register name item
    | none => r) .empty

end Item

end ResourceTree
