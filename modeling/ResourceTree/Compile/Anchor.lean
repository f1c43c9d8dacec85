import ResourceTree.Compile.Rewrite

/-!
# Anchored trees — files by their full paths

A string marked as a file becomes the full path of that file, looked for from the directory of the
source it is written in; a missing file drops the string. A relative `import` is put behind the
directory, so that it still names the same file after it was moved to another source.

* `anchorImport`;
* **`anchored`**: the rewrite, for sources in a directory.
-/

namespace ResourceTree

namespace Compile

variable {σ : Type}

mutual

/-- Puts the relative targets of an import behind a directory. -/
def anchorImport (dir : Path) : Value → Value
  | .string raw =>
    if (Path.mk raw).isAbsolute then .string raw else .string (dir.join raw).text
  | .list items => .list (anchorImports dir items)
  | v => v

def anchorImports (dir : Path) : List Value → List Value
  | [] => []
  | item :: rest => anchorImport dir item :: anchorImports dir rest

end

/-- Puts the import of a dictionary behind a directory. -/
def anchorMember (dir : Path) (d : Dict Value) : Dict Value :=
  match d.get? Reserved.import_ with
  | some target => d.set Reserved.import_ (anchorImport dir target)
  | none => d

/-- The full path of a marked file, which is recorded. -/
def anchorFile (dir : Path) (place : Place) (raw : String) : Action σ (OtherPlan σ) := do
  match ← Action.resolveFile dir raw with
  | .ok path => return .keep (.string path.text)
  | .error e => do
    Action.addError place .resolution s!"missing file '{raw}': {e.message}"
    return .drop

/-- **Anchors the files of a source in a directory.** -/
def anchored (dir : Path) : Rewrite σ where
  onDict _ _ := return .members [] none fun out => return some (.dict (anchorMember dir out))
  onOther place v :=
    match v.asString?.bind (Reserved.afterMark? Reserved.fileMark) with
    | some raw => anchorFile dir place raw
    | none => return .elements

end Compile

end ResourceTree
