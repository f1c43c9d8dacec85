/-!
# Signals — marks that are set once and waited for

* `Signal`, `Signal.set`, `Signal.waitFor`: a wait that gives up answers whether the signal is set.
-/

namespace ResourceTree

/-- A mark that stays set. -/
structure Signal where
  isSet : Bool
deriving DecidableEq, Repr, Inhabited

namespace Signal

def unset : Signal := ⟨false⟩

def set (_ : Signal) : Signal := ⟨true⟩

/-- What a wait that gives up after a while answers. -/
def waitFor (s : Signal) : Bool := s.isSet

end Signal

end ResourceTree
