import ResourceTree.Artifact
import ResourceTree.Compile.Expand
import ResourceTree.Compile.Finish
import ResourceTree.Compile.Instantiate
import ResourceTree.Compile.Packing
import ResourceTree.Compile.Save
import ResourceTree.Compile.Sibling

/-!
# Compiling — from a source to a tree that can be stored

A source is anchored, expanded, instantiated, finished, extended and saved, in this order; then the
flags of compression are taken out, and the files that were looked at are listed in the tree.
Problems never stop a compile: they are collected beside whatever could be compiled.

* `Config`, `Output`;
* `Compile.pipeline`, **`Compiler.compileDict`**;
* `compileText`, `compileFile`, **`compileCached`**: a compile through its artifact file.
-/

namespace ResourceTree

/-- How to compile. -/
structure Config where
  debug : Bool
  /-- Where artifact files are kept. -/
  cacheDir : Path
  /-- Whether the root entries of a step may be visited by tasks of their own. -/
  parallel : Bool
  /-- So many tasks at a time. -/
  maxBatch : Nat

namespace Config

/-- A release compile in parallel, with artifacts in a directory. -/
def initial (cacheDir : Path) : Config := ⟨false, cacheDir, true, 64⟩

def withDebug (c : Config) (debug : Bool) : Config := { c with debug }

def withCacheDir (c : Config) (cacheDir : Path) : Config := { c with cacheDir }

def withParallel (c : Config) (parallel : Bool) : Config := { c with parallel }

def withMaxBatch (c : Config) (maxBatch : Nat) : Config := { c with maxBatch := max maxBatch 1 }

/-- The settings that are given, on top of what is there. -/
def adjust (c : Config) (debug : Option Bool) (cacheDir : Option Path) (parallel : Option Bool)
    (maxBatch : Option Nat) : Config :=
  let c := (debug.map c.withDebug).getD c
  let c := (cacheDir.map c.withCacheDir).getD c
  let c := (parallel.map c.withParallel).getD c
  (maxBatch.map c.withMaxBatch).getD c

def fanOut (c : Config) : Option FanOut :=
  if c.parallel then some { batch := c.maxBatch } else none

end Config

/-- What a compile gives. -/
structure Output where
  dict : Dict Value
  errors : List Diagnostic
  /-- Whether the tree is to be stored compressed. -/
  compress : Bool
  fromCache : Bool

namespace Output

/-- The output of a source that could not be read. -/
def failed (d : Diagnostic) : Output := ⟨∅, [d], true, false⟩

def isOk (o : Output) : Bool := o.errors.isEmpty

def files (o : Output) : List Path := dependencies o.dict

end Output

namespace Compile

variable {σ : Type} [ObjectClass σ]

/-- The steps of a compile, from the source in a directory to its output. -/
def pipeline (dir : Path) (source : Option Path) (d : Dict Value) : Action σ Output := do
  if let some path := source then Action.recordFile path
  let d ← (anchored dir).run 0 d
  let d ← expanded.run revisitLimit d
  let asked := requestsPacking (← Action.handles) d
  let d ← instantiated.run 0 d
  let d ← finished.run 0 d
  let d ← extended d
  let d ← saved.run (← Action.store).objects.size d
  let (d, compress) := stripFlags (← Action.handles) d
  let files := (← get).files.map fun path => Value.string path.text
  let errors ← Action.takeErrors
  return ⟨d.set Reserved.files (.list files), errors, compress || asked, false⟩

end Compile

/-- A compiler over files of sort `φ`, for objects that hold a `σ`. -/
structure Compiler (φ σ : Type) where
  config : Config
  registry : Registry σ
  files : φ

/-- What a compile leaves: its output, and the objects it finished, unless a callback panicked; the
store; and the files. -/
structure Compiled (φ σ : Type) where
  outcome : Except Panic (Output × List ObjectRef)
  store : Store σ
  files : φ

namespace Compiler

variable {φ σ : Type} [FileSystem φ] [ObjectClass σ]

/-- An output that took no compile. -/
def unchanged (c : Compiler φ σ) (s : Store σ) (o : Output) : Compiled φ σ :=
  ⟨.ok (o, []), s, c.files⟩

/-- Runs the steps of a compile. -/
def compileWith (c : Compiler φ σ) (s : Store σ) (dir : Path) (source : Option Path)
    (d : Dict Value) : Compiled φ σ :=
  let setting := Setting.of dir c.config.debug (FileView.of c.files) c.registry c.config.fanOut
  match (Compile.pipeline dir source d).run setting (Progress.initial s) with
  | (.ok output, progress) => ⟨.ok (output, progress.finished.toList), progress.store, c.files⟩
  | (.error crash, progress) => ⟨.error crash.panic, progress.store, c.files⟩

/-- **Compiles a dictionary.** Relative files are looked for from `dir`. -/
def compileDict (c : Compiler φ σ) (s : Store σ) (d : Dict Value) (dir : Path) : Compiled φ σ :=
  c.compileWith s dir none d

/-- Compiles a source text. -/
def compileText (c : Compiler φ σ) (s : Store σ) (text : String) (dir : Path) : Compiled φ σ :=
  match Json.parseSource text with
  | .ok d => c.compileDict s d dir
  | .error e => c.unchanged s (.failed (.ofError e))

/-- The source of a file as a dictionary. -/
def readSource (c : Compiler φ σ) (path : Path) : Except ResourceError (Dict Value) := do
  Json.parseSource (← (FileView.of c.files).readText path)

/-- **Compiles a source file**, on which the output then depends. -/
def compileFile (c : Compiler φ σ) (s : Store σ) (path : Path) : Compiled φ σ :=
  match FileSystem.canonicalize c.files path with
  | .error e =>
    c.unchanged s (.failed ⟨.resolution, "", s!"cannot open '{path.text}': {e.message}"⟩)
  | .ok source =>
    match c.readSource source with
    | .error e => c.unchanged s (.failed (.ofError e))
    | .ok d => c.compileWith s ((source.parent?).getD ⟨"/"⟩) (some source) d

/-- Where the artifact of a source lies. -/
def artifactPath (c : Compiler φ σ) (source : Path) : Path :=
  Artifact.path c.config.cacheDir source c.config.debug

/-- **Compiles a source file through its artifact**: a fresh artifact is the output; otherwise the
source is compiled, and an output without errors becomes the artifact. -/
def compileCached (c : Compiler φ σ) (s : Store σ) (path : Path) : Compiled φ σ :=
  match FileSystem.canonicalize c.files path with
  | .error _ => c.compileFile s path
  | .ok source =>
    let target := c.artifactPath source
    match Artifact.readFresh c.files target with
    | some a => c.unchanged s ⟨a.dict, [], a.compressed, true⟩
    | none =>
      let compiled := c.compileFile s source
      match compiled.outcome with
      | .ok (output, _) =>
        if output.isOk then
          { compiled with files := (Artifact.save c.files target ⟨output.dict, output.compress⟩).2 }
        else compiled
      | .error _ => compiled

end Compiler

end ResourceTree
