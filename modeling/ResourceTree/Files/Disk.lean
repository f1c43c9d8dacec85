import ResourceTree.Dict
import ResourceTree.Files.Access

/-!
# Files on a disk

A disk is a tree of directories. A path is followed name by name: what it passes has to be a
directory, `.` stays, `..` goes up, and a slash at the end asks for a directory. A file or a
directory changes with every write to it, and each change is later than all before it.

* `DiskFault`: why an operation is refused;
* `DiskNode`, `DiskFiles`: what lies at the absolute places of a disk;
* `locate`, `makeDirectory`, `makeDirectories`, `writeFile`, `remove`, `postdate`, `entryCount`;
* the `FileSystem` of it.
-/

namespace ResourceTree

/-- Why a disk refuses an operation. -/
inductive DiskFault where
  | missing
  | notDirectory
  | isDirectory
  | occupied
  | nameTooLong
  /-- The path has a character that no path may have. -/
  | zeroCharacter
deriving DecidableEq, Repr

/-- The cause, as the operating system words it. -/
def DiskFault.cause : DiskFault → String
  | missing => "No such file or directory (os error 2)"
  | notDirectory => "Not a directory (os error 20)"
  | isDirectory => "Is a directory (os error 21)"
  | occupied => "File exists (os error 17)"
  | nameTooLong => "File name too long (os error 36)"
  | zeroCharacter => "file name contained an unexpected NUL byte"

/-- The error of an operation on a path. -/
def DiskFault.toError (path : Path) : DiskFault → ResourceError
  | missing => .notFound path.text
  | fault => .io path.text fault.cause

/-- What lies at a place. -/
inductive DiskContent where
  | file (bytes : Bytes)
  | directory
deriving DecidableEq

/-- A file or a directory, and the time of its last change. -/
structure DiskNode where
  content : DiskContent
  modified : Nat

/-- The names that lead to a place from the root. -/
abbrev DiskPlace := List String

/-- What lies on a disk, under the texts of its places, and the clock. -/
structure DiskFiles where
  nodes : Dict DiskNode
  clock : Nat

namespace DiskFiles

/-- The text under which a place is kept. -/
def key (place : DiskPlace) : String := "/" ++ "/".intercalate place

def node? (disk : DiskFiles) (place : DiskPlace) : Option DiskNode := disk.nodes.get? (key place)

def isDirectory (disk : DiskFiles) (place : DiskPlace) : Bool :=
  (disk.node? place).any (·.content = .directory)

/-- Puts a node at a place, changed now. -/
def put (disk : DiskFiles) (place : DiskPlace) (content : DiskContent) : DiskFiles :=
  let now := disk.clock + 1
  ⟨disk.nodes.insert (key place) ⟨content, now⟩, now⟩

/-- Adds a node that was not there, which changes its directory too. -/
def add (disk : DiskFiles) (place : DiskPlace) (content : DiskContent) : DiskFiles :=
  (disk.put place content).put place.dropLast .directory

/-- A disk with an empty root. -/
def empty : DiskFiles := put ⟨∅, 0⟩ [] .directory

/-! ## Following paths -/

/-- The longest name, in octets. -/
def nameLimit : Nat := 255

/-- A path has fewer octets than this. -/
def pathLimit : Nat := 4096

/-- The parts of a path between slashes. -/
def segments (p : Path) : List String :=
  ((Text.splitAt '/' p.text.toList).filter (!·.isEmpty)).map String.ofList

/-- Whether a path ends in a slash. -/
def asksDirectory (p : Path) : Bool := p.text.toList.getLast? = some '/'

/-- Refuses texts that are no paths. -/
def checkText (p : Path) : Except DiskFault Unit :=
  if p.text.toList.contains '\x00' then .error .zeroCharacter
  else if p.text.isEmpty then .error .missing
  else if pathLimit ≤ p.text.utf8ByteSize then .error .nameTooLong
  else .ok ()

/-- Goes on by one segment, from what has to be a directory. -/
def enter (disk : DiskFiles) (place : DiskPlace) (segment : String) :
    Except DiskFault DiskPlace :=
  if !disk.isDirectory place then .error .notDirectory
  else if segment = "." then .ok place
  else if segment = ".." then .ok place.dropLast
  else if nameLimit < segment.utf8ByteSize then .error .nameTooLong
  else
    let next := place ++ [segment]
    if (disk.node? next).isSome then .ok next else .error .missing

/-- **The place that a path leads to**, where something lies. -/
def locate (disk : DiskFiles) (p : Path) : Except DiskFault DiskPlace := do
  checkText p
  let place ← (segments p).foldlM disk.enter []
  if asksDirectory p && !disk.isDirectory place then .error .notDirectory
  else return place

/-- What lies where a path leads. -/
def find (disk : DiskFiles) (p : Path) : Except DiskFault DiskNode := do
  let place ← disk.locate p
  match disk.node? place with
  | some node => return node
  | none => throw .missing

/-- The directory that a path leads to but for its last segment, and that segment; `none` where
the last segment is no name. -/
def locateLast (disk : DiskFiles) (p : Path) : Except DiskFault (Option (DiskPlace × String)) := do
  checkText p
  let parts := segments p
  let dir ← parts.dropLast.foldlM disk.enter []
  if !disk.isDirectory dir then .error .notDirectory
  else
    match parts.getLast? with
    | none => return none
    | some last => return if last = "." || last = ".." then none else some (dir, last)

/-! ## Changes -/

/-- Makes one directory. -/
def makeDirectory (disk : DiskFiles) (p : Path) : Except DiskFault DiskFiles := do
  match ← disk.locateLast p with
  | none => throw .occupied
  | some (dir, name) =>
    let place := dir ++ [name]
    if nameLimit < name.utf8ByteSize then throw .nameTooLong
    else if (disk.node? place).isSome then throw .occupied
    else return disk.add place .directory

/-- Whether a path leads to a directory. -/
def leadsToDirectory (disk : DiskFiles) (p : Path) : Bool :=
  match disk.locate p with
  | .ok place => disk.isDirectory place
  | .error _ => false

/-- Makes a directory and, at most so many levels up, those above it; what was made before a fault
stays. -/
def makeDirectoriesWithin : Nat → DiskFiles → Path → Except DiskFault Unit × DiskFiles
  | 0, disk, _ => (.error .missing, disk)
  | levels + 1, disk, p =>
    if p.text.isEmpty then (.ok (), disk)
    else
      match disk.makeDirectory p with
      | .ok disk => (.ok (), disk)
      | .error .missing =>
        match p.parent? with
        | none => (.error .missing, disk)
        | some parent =>
          match makeDirectoriesWithin levels disk parent with
          | (.error fault, disk) => (.error fault, disk)
          | (.ok (), disk) =>
            match disk.makeDirectory p with
            | .ok disk => (.ok (), disk)
            | .error fault =>
              (if disk.leadsToDirectory p then .ok () else .error fault, disk)
      | .error fault => (if disk.leadsToDirectory p then .ok () else .error fault, disk)

/-- **Makes a directory and those above it.** A path has one parent for each of its components. -/
def makeDirectories (disk : DiskFiles) (p : Path) : Except DiskFault Unit × DiskFiles :=
  makeDirectoriesWithin (p.components.length + 1) disk p

/-- Writes a file in a directory that is there. -/
def writeFile (disk : DiskFiles) (p : Path) (bytes : Bytes) : Except DiskFault DiskFiles := do
  match ← disk.locateLast p with
  | none => throw .isDirectory
  | some (dir, name) =>
    let place := dir ++ [name]
    if asksDirectory p then throw .isDirectory
    else if nameLimit < name.utf8ByteSize then throw .nameTooLong
    else
      match disk.node? place with
      | none => return disk.add place (.file bytes)
      | some ⟨.file _, _⟩ => return disk.put place (.file bytes)
      | some ⟨.directory, _⟩ => throw .isDirectory

/-- Removes a file. -/
def remove (disk : DiskFiles) (p : Path) : Bool × DiskFiles :=
  match disk.locate p with
  | .error _ => (false, disk)
  | .ok place =>
    if disk.isDirectory place then (false, disk)
    else
      (true, { disk with nodes := disk.nodes.erase (key place) }.put place.dropLast .directory)

/-- Times count milliseconds. -/
def hour : Nat := 3600 * 1000

/-- Dates the last change of what lies at a path one hour ahead. -/
def postdate (disk : DiskFiles) (p : Path) : DiskFiles :=
  match disk.locate p with
  | .error _ => disk
  | .ok place =>
    match disk.node? place with
    | none => disk
    | some node =>
      let modified := disk.clock + hour
      { disk with nodes := disk.nodes.insert (key place) { node with modified } }

/-- How many entries a directory has; nothing else has entries. -/
def entryCount (disk : DiskFiles) (p : Path) : Nat :=
  match disk.locate p with
  | .error _ => 0
  | .ok place =>
    disk.nodes.entries.countP fun entry =>
      let parts := segments ⟨entry.1⟩
      !parts.isEmpty && parts.dropLast = place

instance : FileSystem DiskFiles where
  read disk p :=
    match disk.find p with
    | .ok ⟨.file bytes, _⟩ => .ok bytes
    | .ok ⟨.directory, _⟩ => .error (DiskFault.toError p .isDirectory)
    | .error fault => .error (fault.toError p)
  write disk p bytes :=
    let above := p.parent?.getD ⟨""⟩
    match disk.makeDirectories above with
    | (.error fault, disk) => (.error (fault.toError above), disk)
    | (.ok (), disk) =>
      match disk.writeFile p bytes with
      | .ok disk => (.ok (), disk)
      | .error fault => (.error (fault.toError p), disk)
  present disk p := (disk.locate p).isOk
  modified disk p := ((·.modified) <$> disk.find p).mapError (·.toError p)
  canonicalize disk p := ((fun place => ⟨key place⟩) <$> disk.locate p).mapError (·.toError p)

end DiskFiles

end ResourceTree
