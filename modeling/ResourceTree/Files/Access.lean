import ResourceTree.Error
import ResourceTree.Files.Path
import ResourceTree.Text.Utf8

/-!
# File access — what compiling needs from a file system

* `FileSystem`: the operations of a store of files;
* `FileView`: its reading side, all that a compile may look at;
* `FileView.readText`: octets as text, or the first fault in them.
-/

namespace ResourceTree

/-- A store of files. Times count seconds. -/
class FileSystem (φ : Type) where
  read : φ → Path → Except ResourceError Bytes
  /-- Writes a file, creating the directories above it as needed. -/
  write : φ → Path → Bytes → Except ResourceError Unit × φ
  present : φ → Path → Bool
  modified : φ → Path → Except ResourceError Nat
  /-- The absolute normal form of an existing path. -/
  canonicalize : φ → Path → Except ResourceError Path

/-- The side of a file system that a compile reads. -/
structure FileView where
  read : Path → Except ResourceError Bytes
  canonicalize : Path → Except ResourceError Path

def FileView.of {φ : Type} [FileSystem φ] (files : φ) : FileView :=
  ⟨FileSystem.read files, FileSystem.canonicalize files⟩

/-- Octets of a file as text. -/
def textOfFile (path : Path) (bytes : Bytes) : Except ResourceError String :=
  match bytes.toString? with
  | some s => .ok s
  | none =>
    let fault := ((Text.Utf8Fault.first? bytes).map (·.message)).getD ""
    .error (.other s!"'{path.text}' is not valid UTF-8: {fault}")

/-- Reads a file as text. -/
def FileView.readText (files : FileView) (path : Path) : Except ResourceError String := do
  textOfFile path (← files.read path)

end ResourceTree
