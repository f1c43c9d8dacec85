/-!
# Watching files

Programs built without a watcher can ask for one, and are told that there is none.

* `Watcher.start`.
-/

namespace ResourceTree

/-- Why files cannot be watched. -/
inductive WatchFault where
  | notEnabled
deriving DecidableEq, Repr

def WatchFault.message : WatchFault → String
  | notEnabled => "Hot reload feature not enabled"

/-- A running watcher; none can be made. -/
inductive Watcher where

/-- Asks for a watcher. -/
def Watcher.start : Except WatchFault Watcher := .error .notEnabled

end ResourceTree
