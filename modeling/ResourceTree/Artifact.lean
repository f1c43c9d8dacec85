import ResourceTree.Codec.Packed
import ResourceTree.Files.Access
import ResourceTree.Reserved
import ResourceTree.Text.Quoted

/-!
# Artifacts — compiled trees kept in files

An artifact file has a mark of four octets, a version word, an octet of flags, and the encoded root
dictionary, compressed when the lowest flag says so. It is fresh while no file that the tree
depends on is newer than it.

* `Artifact`, `Artifact.encode`, **`Artifact.decode`**;
* `stableHash`, **`Artifact.path`**: where the artifact of a source lies;
* `dependencies`, **`Artifact.readFresh`**, `Artifact.save`.
-/

namespace ResourceTree

/-- A hash of octets that never changes: exclusive-or with each octet, then a product modulo
`2 ^ 64`. -/
def stableHash (bytes : Bytes) : UInt64 :=
  bytes.foldl (fun hash b => (hash ^^^ b.toUInt64) * 0x100000001b3) 0xcbf29ce484222325

/-- The files that a compiled tree says it depends on. -/
def dependencies (d : Dict Value) : List Path :=
  (((d.get? Reserved.files).bind Value.asList?).getD []).filterMap fun v => v.asString?.map Path.mk

/-- A compiled tree, and whether it is stored compressed. -/
structure Artifact where
  dict : Dict Value
  compressed : Bool

namespace Artifact

/-- The four octets that every artifact begins with. -/
def mark : Bytes := Bytes.ofString "ARES"

def version : Nat := 1

/-- Octets before the tree. -/
def headerLength : Nat := 9

/-- Why octets are no artifact. -/
inductive Fault where
  | noArtifact
  | otherVersion (found : Nat)
  | payload (fault : UnpackFault)
deriving DecidableEq, Repr

def Fault.message : Fault → String
  | noArtifact => "not a resource cache file"
  | otherVersion found => s!"cache format version {found} (expected {version})"
  | payload fault => fault.message

def Fault.toError (fault : Fault) : ResourceError := .decode fault.message

/-- The octets of an artifact. -/
def encode (a : Artifact) : Except EncodeFault Bytes := do
  let payload ← a.dict.encode
  let payload := if a.compressed then Lz4.compress payload else payload
  return mark ++ Bytes.ofNat 4 version ++ [if a.compressed then 1 else 0] ++ payload

/-- **The artifact in octets.** -/
def decode (bytes : Bytes) : Except Fault Artifact :=
  match bytes.split? headerLength with
  | none => .error .noArtifact
  | some (header, payload) =>
    let found := Bytes.toNat ((header.drop 4).take 4)
    if header.take 4 ≠ mark then .error .noArtifact
    else if found ≠ version then .error (.otherVersion found)
    else
      let compressed := Bytes.toNat (header.drop 8) % 2 = 1
      let read := if compressed then Dict.decodeCompressed payload
        else (Dict.decode payload).mapError UnpackFault.dictionary
      match read with
      | .ok dict => .ok ⟨dict, compressed⟩
      | .error fault => .error (.payload fault)

/-- What artifact files are called after their last dot. -/
def extension : String := "rescache"

/-- **Where the artifact of a source lies**: debug compiles have files of their own. -/
def path (dir source : Path) (debug : Bool) : Path :=
  let stem := (source.stem?).getD "resources"
  let hash := Text.hexDigits 16 (stableHash (Bytes.ofString source.text)).toNat
  let suffix := if debug then "-debug" else ""
  dir.join (stem ++ "-" ++ hash ++ suffix ++ "." ++ extension)

section Files

variable {φ : Type} [FileSystem φ]

/-- Writes an artifact. -/
def save (files : φ) (path : Path) (a : Artifact) : Except ResourceError Unit × φ :=
  match a.encode with
  | .error fault => (.error fault.toError, files)
  | .ok bytes => FileSystem.write files path bytes

/-- Whether a file is there and not newer than `written`. -/
def notNewer (files : φ) (written : Nat) (path : Path) : Bool :=
  match FileSystem.modified files path with
  | .ok modified => modified ≤ written
  | .error _ => false

/-- **The artifact in a file, while it is fresh.** -/
def readFresh (files : φ) (path : Path) : Option Artifact := do
  let written ← (FileSystem.modified files path).toOption
  let bytes ← (FileSystem.read files path).toOption
  let a ← (decode bytes).toOption
  if (dependencies a.dict).all (notNewer files written) then some a else none

end Files

end Artifact

end ResourceTree
