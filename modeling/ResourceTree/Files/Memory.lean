import ResourceTree.Dict
import ResourceTree.Files.Access

/-!
# Files in memory

Files are kept under the normal forms of their paths. A logical clock moves on by one second with
every write and every touch, so that each is newer than all before it.

* `MemoryFiles`: `insert`, `touch`, `remove`, `file?`;
* the `FileSystem` of it.
-/

namespace ResourceTree

/-- A file and the time of its last write. -/
structure MemoryFile where
  bytes : Bytes
  modified : Nat

/-- Files under normal paths, and the clock. -/
structure MemoryFiles where
  files : Dict MemoryFile
  clock : Nat

namespace MemoryFiles

def empty : MemoryFiles := ⟨∅, 0⟩

/-- The text under which a path is kept. -/
def key (p : Path) : String := p.normalize.text

def file? (fs : MemoryFiles) (p : Path) : Option MemoryFile := fs.files.get? (key p)

/-- Adds or replaces a file. -/
def insert (fs : MemoryFiles) (p : Path) (bytes : Bytes) : MemoryFiles :=
  let now := fs.clock + 1
  ⟨fs.files.insert (key p) ⟨bytes, now⟩, now⟩

/-- Makes a file newer without changing it; the clock moves on even where there is none. -/
def touch (fs : MemoryFiles) (p : Path) : Bool × MemoryFiles :=
  let now := fs.clock + 1
  match fs.file? p with
  | some file => (true, ⟨fs.files.insert (key p) { file with modified := now }, now⟩)
  | none => (false, { fs with clock := now })

def remove (fs : MemoryFiles) (p : Path) : Bool × MemoryFiles :=
  ((fs.file? p).isSome, { fs with files := fs.files.erase (key p) })

/-- A file, or the error that shows the path as it was asked for. -/
def find (fs : MemoryFiles) (p : Path) : Except ResourceError MemoryFile :=
  match fs.file? p with
  | some file => .ok file
  | none => .error (.notFound p.text)

instance : FileSystem MemoryFiles where
  read fs p := (·.bytes) <$> fs.find p
  write fs p bytes := (.ok (), fs.insert p bytes)
  present fs p := (fs.file? p).isSome
  modified fs p := (·.modified) <$> fs.find p
  canonicalize fs p := (fun _ => p.normalize) <$> fs.find p.normalize

end MemoryFiles

end ResourceTree
