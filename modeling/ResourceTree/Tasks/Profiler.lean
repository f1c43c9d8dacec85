/-!
# Profiling — the switch and the frames of a profiler

* `Profiler`, `enable`, `newFrame`.
-/

namespace ResourceTree

/-- Whether scopes are recorded, and how many frames were begun. -/
structure Profiler where
  isEnabled : Bool
  frames : Nat
deriving DecidableEq, Repr, Inhabited

namespace Profiler

def off : Profiler := ⟨false, 0⟩

def enable (p : Profiler) (on : Bool) : Profiler := { p with isEnabled := on }

def newFrame (p : Profiler) : Profiler := { p with frames := p.frames + 1 }

end Profiler

end ResourceTree
