import ResourceTree.Object.Class

/-!
# Sprite sheets and probes — objects that need no finishing

A sprite sheet has the size of its frames and an optional fallback. A probe keeps whatever it was
loaded from.

* `SpriteSheet.ofSource`, `ofSaved`, `save`;
* `Probe`.
-/

namespace ResourceTree

/-- The size of the frames of an image, and what to show without it. -/
structure SpriteSheet where
  frameWidth : Number
  frameHeight : Number
  fallback : Option Value
deriving Inhabited

namespace SpriteSheet

def typeName : String := "sprite_sheet"

def fresh : SpriteSheet := ⟨.zero, .zero, none⟩

def numberOf (d : Dict Value) (name : String) : Number :=
  ((d.get? name).bind Value.asNumber?).getD .zero

/-- A sprite sheet from its saved form. -/
def ofSaved (d : Dict Value) : SpriteSheet :=
  ⟨numberOf d "frame_width", numberOf d "frame_height", d.get? "fallback"⟩

/-- A sprite sheet from source, where empty frames are reported. -/
def ofSource (d : Dict Value) : Loading SpriteSheet := do
  let sheet := ofSaved d
  if sheet.frameWidth.atMostZero || sheet.frameHeight.atMostZero then
    Loading.addError "frame size must be positive"
  return sheet

/-- The saved form. -/
def save (s : SpriteSheet) : Dict Value :=
  Dict.ofValues <|
    [("frame_width", .number s.frameWidth), ("frame_height", .number s.frameHeight)]
    ++ s.fallback.toList.map (("fallback", ·))

end SpriteSheet

/-- An object that keeps what it was loaded from. -/
structure Probe where
  source : Dict Value
deriving Inhabited

namespace Probe

def typeName : String := "probe"

def fresh : Probe := ⟨∅⟩

/-- The saved form. -/
def save (p : Probe) : Dict Value := Dict.ofValues [("source", .dict p.source)]

end Probe

end ResourceTree
