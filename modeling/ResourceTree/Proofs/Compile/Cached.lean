import ResourceTree.Example.Item
import ResourceTree.Proofs.Artifact
import ResourceTree.Proofs.Compile.Output
import ResourceTree.Proofs.Files.Memory
import ResourceTree.Proofs.Naming
import ResourceTree.Proofs.Value.Equality

/-!
# Compiles through artifacts

A build changes files in memory and compiles sources through their artifacts, in any order. An
artifact that is still fresh is served in the place of a compile, and gives what the compile would
give: it lists all the files that the compile looked at, and none of them has changed.

* `SameOutcome`: outcomes that nobody can tell apart;
* `compileCached_cases`: a compile through its artifact serves the artifact, or compiles;
* `Build`, **`Build.Step`**, **`Build.Reachable`**: files in memory between compiles;
* `Build.Origin`: where an artifact comes from; `Origin.matches`, `Origin.serves`: a fresh one;
* `Build.Sound`, `Sound.step`: every artifact comes from somewhere, whatever is changed;
* **`Build.Reachable.compileCached_same`**: a compile through its artifact is as good as a compile.
-/

namespace ResourceTree

/-! ## Outcomes -/

/-- Outcomes that nobody can tell apart: equal trees with the same diagnostics and the same flag, or
the same panic. -/
inductive SameOutcome : Except Panic (Output × List ObjectRef) →
    Except Panic (Output × List ObjectRef) → Prop where
  | output {o o' : Output} {finished finished' : List ObjectRef}
      (dict : (o.dict == o'.dict) = true) (errors : o.errors = o'.errors)
      (compress : o.compress = o'.compress) : SameOutcome (.ok (o, finished)) (.ok (o', finished'))
  | panic (p : Panic) : SameOutcome (.error p) (.error p)

theorem SameOutcome.trans {a b c : Except Panic (Output × List ObjectRef)} (hab : SameOutcome a b)
    (hbc : SameOutcome b c) : SameOutcome a c := by
  cases hab with
  | panic p => exact hbc
  | output hdict herrors hcompress =>
    cases hbc with
    | output hdict' herrors' hcompress' =>
      exact .output (Dict.beq_trans hdict hdict') (herrors.trans herrors')
        (hcompress.trans hcompress')

namespace Compiler

section

variable {φ σ : Type} [FileSystem φ] [ObjectClass σ] {c : Compiler φ σ} {s : Store σ}
  {path source : Path} {o : Output} {finished : List ObjectRef}

theorem wellFormed_of_compileFile (h : (c.compileFile s path).outcome = .ok (o, finished)) :
    (Value.dict o.dict).WellFormed := by
  have hempty : (Value.dict ∅).WellFormed :=
    Value.wellFormed_dict Dict.wellFormed_empty Dict.nullFree_empty nofun
  unfold compileFile at h
  split at h
  · cases h
    exact hempty
  · split at h
    · cases h
      exact hempty
    · rw [compileWith_outcome] at h
      split at h
      · cases h
        exact Compile.wellFormed_outputOf _ _
      · cases h

theorem sameOutcome_compileFile (c : Compiler φ σ) (s : Store σ) (path : Path) :
    SameOutcome (c.compileFile s path).outcome (c.compileFile s path).outcome := by
  cases h : (c.compileFile s path).outcome with
  | error p => exact .panic p
  | ok result => exact .output (Dict.beq_refl (wellFormed_of_compileFile h)) rfl rfl

theorem compileFile_files (c : Compiler φ σ) (s : Store σ) (path : Path) :
    (c.compileFile s path).files = c.files := by
  unfold compileFile
  split
  · rfl
  · split
    · rfl
    · unfold compileWith
      dsimp only
      split <;> rfl

/-- A compile depends on the full path alone, once a file was found. -/
theorem compileFile_source (hpath : FileSystem.canonicalize c.files path = .ok source)
    (hsource : FileSystem.canonicalize c.files source = .ok source) :
    c.compileFile s path = c.compileFile s source := by
  unfold compileFile
  rw [hpath, hsource]

/-- **A compile through its artifact serves the artifact or compiles.** In the second case it
leaves the files alone, or saves an output without errors. -/
theorem compileCached_cases (c : Compiler φ σ) (s : Store σ) (path : Path)
    (hfull : ∀ source, FileSystem.canonicalize c.files path = .ok source →
      FileSystem.canonicalize c.files source = .ok source) :
    (∃ source a, FileSystem.canonicalize c.files path = .ok source ∧
      Artifact.readFresh c.files (c.artifactPath source) = some a ∧
      c.compileCached s path = c.unchanged s ⟨a.dict, [], a.compressed, true⟩) ∨
    ((c.compileCached s path).outcome = (c.compileFile s path).outcome ∧
      ((c.compileCached s path).files = c.files ∨
        ∃ source o finished, FileSystem.canonicalize c.files path = .ok source ∧
          (c.compileFile s source).outcome = .ok (o, finished) ∧ o.errors = [] ∧
          (c.compileCached s path).files =
            (Artifact.save c.files (c.artifactPath source) ⟨o.dict, o.compress⟩).2)) := by
  unfold compileCached
  cases hpath : FileSystem.canonicalize c.files path with
  | error e => exact .inr ⟨rfl, .inl (c.compileFile_files s path)⟩
  | ok source =>
    dsimp only
    cases hfresh : Artifact.readFresh c.files (c.artifactPath source) with
    | some a => exact .inl ⟨source, a, rfl, hfresh, rfl⟩
    | none =>
      right
      rw [compileFile_source hpath (hfull source hpath)]
      have hfiles := c.compileFile_files s source
      cases hrun : (c.compileFile s source).outcome with
      | error p => exact ⟨hrun, .inl hfiles⟩
      | ok result =>
        obtain ⟨o, finished⟩ := result
        dsimp only
        split
        · next hok =>
          exact ⟨rfl, .inr ⟨source, o, finished, rfl, hrun, List.isEmpty_iff.mp hok, rfl⟩⟩
        · exact ⟨hrun, .inl hfiles⟩

end

end Compiler

/-! ## Artifacts in memory -/

namespace MemoryFiles

variable {fs : MemoryFiles} {p : Path}

/-- **An artifact that is fresh**: it is read from its file, and no file that it depends on is
newer. -/
theorem exists_of_readFresh {a : Artifact} (h : Artifact.readFresh fs p = some a) :
    ∃ file, fs.file? p = some file ∧ Artifact.decode file.bytes = .ok a ∧
      ∀ q ∈ dependencies a.dict, ∃ other, fs.file? q = some other ∧
        other.modified ≤ file.modified := by
  unfold Artifact.readFresh at h
  cases hfile : fs.file? p with
  | none =>
    rw [modified_of_file?_none hfile] at h
    cases h
  | some file =>
    rw [modified_of_file? hfile, read_of_file? hfile] at h
    cases hdecode : Artifact.decode file.bytes with
    | error fault => simp [Except.toOption, hdecode] at h
    | ok found =>
      simp only [Except.toOption, hdecode, Option.bind_eq_bind, Option.bind_some] at h
      split_ifs at h with hall
      cases h
      refine ⟨file, rfl, hdecode, fun q hq => ?_⟩
      have hq := List.all_eq_true.mp hall q hq
      unfold Artifact.notNewer at hq
      cases hother : fs.file? q with
      | none =>
        rw [modified_of_file?_none hother] at hq
        cases hq
      | some other =>
        rw [modified_of_file? hother] at hq
        exact ⟨other, rfl, of_decide_eq_true hq⟩

theorem not_source_of_mark {file : MemoryFile} (hfile : fs.file? p = some file)
    (hmark : Artifact.mark <+: file.bytes) (d : Dict Value) :
    (FileView.of fs).source p ≠ .ok d := by
  rw [source_eq hfile]
  unfold textOfFile
  cases htext : file.bytes.toString? with
  | none => exact nofun
  | some text =>
    rw [Bytes.ofString_of_toString?_eq_some htext] at hmark
    exact Artifact.not_source hmark d

end MemoryFiles

/-! ## Builds -/

/-- What stays the same in a build. -/
structure Build (σ : Type) where
  config : Config
  registry : Registry σ
  /-- The stores that a compile may start from. -/
  stores : Store σ → Prop
  /-- The sources, by their full paths, that are compiled through artifacts. -/
  sources : Path → Prop

namespace Build

variable {σ : Type}

/-- The compiler of a build over files. -/
def compiler (b : Build σ) (fs : MemoryFiles) : Compiler MemoryFiles σ := ⟨b.config, b.registry, fs⟩

/-- Where the artifact of a source lies. -/
def artifactPath (b : Build σ) (source : Path) : Path :=
  Artifact.path b.config.cacheDir source b.config.debug

/-- The name that the artifact of a source is kept under. -/
def artifactKey (b : Build σ) (source : Path) : String := MemoryFiles.key (b.artifactPath source)

/-- Every source has an artifact of its own. -/
def Apart (b : Build σ) : Prop :=
  ∀ x y, b.sources x → b.sources y → b.artifactPath x = b.artifactPath y → x = y

theorem Apart.eq_of_key {b : Build σ} {x y : Path} (h : b.Apart) (hx : b.sources x)
    (hy : b.sources y) (hkey : b.artifactKey x = b.artifactKey y) : x = y :=
  h x y hx hy (Artifact.path_eq_of_normalize (MemoryFiles.key_eq_iff.mp hkey))

theorem artifactKey_ne_of_not_below {b : Build σ} {p : Path} (hp : ¬ p.Below b.config.cacheDir)
    (source : Path) : b.artifactKey source ≠ MemoryFiles.key p := fun heq =>
  hp (MemoryFiles.below_of_key_eq heq (Artifact.below_path _ source _))

variable [ObjectClass σ]

/-- Callbacks do not tell the stores of the build apart: a compile gives the same from each. -/
def Uniform (b : Build σ) : Prop :=
  ∀ s t, b.stores s → b.stores t → ∀ fs path,
    SameOutcome ((b.compiler fs).compileFile s path).outcome
      ((b.compiler fs).compileFile t path).outcome

/-- Where all compiles start from one store, there is nothing to tell apart. -/
theorem uniform_of_subsingleton {b : Build σ} (h : ∀ s t, b.stores s → b.stores t → s = t) :
    b.Uniform := fun s t hs ht fs path =>
  h s t hs ht ▸ (b.compiler fs).sameOutcome_compileFile s path

/-- **A step of a build**: a file outside the directory of artifacts is changed, or a source is
compiled through its artifact. -/
inductive Step (b : Build σ) (fs : MemoryFiles) : MemoryFiles → Prop where
  | insert (p : Path) (bytes : Bytes) (hp : ¬ p.Below b.config.cacheDir) :
      Step b fs (fs.insert p bytes)
  | touch (p : Path) (hp : ¬ p.Below b.config.cacheDir) : Step b fs (fs.touch p).2
  | remove (p : Path) (hp : ¬ p.Below b.config.cacheDir) : Step b fs (fs.remove p).2
  | compile (s : Store σ) (p : Path) (hs : b.stores s) (hp : b.sources p.normalize) :
      Step b fs ((b.compiler fs).compileCached s p).files

/-- **Files that come about in a build** that starts with none. -/
inductive Reachable (b : Build σ) : MemoryFiles → Prop where
  | start : Reachable b .empty
  | step {fs fs' : MemoryFiles} (h : Reachable b fs) (hstep : b.Step fs fs') : Reachable b fs'

/-! ### Where artifacts come from -/

/-- **An artifact comes from a compile** of its source without errors, over files of which those
that are not newer than the artifact are still there. -/
structure Origin (b : Build σ) (fs : MemoryFiles) (source : Path) (file : MemoryFile) (s : Store σ)
    (before : MemoryFiles) (o : Output) (finished : List ObjectRef) : Prop where
  store : b.stores s
  compiled : ((b.compiler before).compileFile s source).outcome = .ok (o, finished)
  clean : o.errors = []
  encoded : Artifact.encode ⟨o.dict, o.compress⟩ = .ok file.bytes
  unchanged : ∀ name other, name ≠ b.artifactKey source → fs.files.get? name = some other →
    other.modified ≤ file.modified → before.files.get? name = some other
  /-- What lay in the place of the artifact was an artifact. -/
  own : ∀ old, before.files.get? (b.artifactKey source) = some old → Artifact.mark <+: old.bytes

variable {b : Build σ} {fs fs' before : MemoryFiles} {source p : Path} {file : MemoryFile}
  {s : Store σ} {o : Output} {finished : List ObjectRef}

theorem Origin.mark (h : b.Origin fs source file s before o finished) :
    Artifact.mark <+: file.bytes := by
  obtain ⟨payload, -, hbytes⟩ := Artifact.encode_eq_ok h.encoded
  rw [hbytes, List.append_assoc, List.append_assoc]
  exact List.prefix_append _ _

/-- A change of files leaves the origin of an artifact as it is: what changes becomes newer than
the artifact. -/
theorem Origin.changes {name : String} (h : b.Origin fs source file s before o finished)
    (hold : file.modified ≤ fs.clock) (hchange : MemoryFiles.Changes name fs fs') :
    b.Origin fs' source file s before o finished := by
  refine ⟨h.store, h.compiled, h.clean, h.encoded, fun other found hne hfound hle => ?_, h.own⟩
  refine h.unchanged other found hne ?_ hle
  rcases eq_or_ne other name with rfl | hother
  · rcases hchange.newer found hfound with hsame | hnew
    · exact hsame
    · omega
  · exact hchange.others other hother ▸ hfound

/-- **Where no dependency is newer than the artifact**, the files of its compile match those of
now. -/
theorem Origin.matches (h : b.Origin fs source file s before o finished)
    (hfresh : ∀ q ∈ o.files, ∃ other, fs.file? q = some other ∧ other.modified ≤ file.modified) :
    (FileView.of before).Matches (FileView.of fs) o.files := by
  have hfile : ∀ x : Path, x.Among o.files →
      ∃ other, fs.file? x = some other ∧ other.modified ≤ file.modified := by
    rintro x ⟨q, hq, heq⟩
    rw [MemoryFiles.file?_congr (MemoryFiles.key_congr heq)]
    exact hfresh q hq
  refine ⟨fun {p x} hfound hx => ?_, fun {x d} hsource hx => ?_⟩
  · obtain ⟨rfl, -⟩ := MemoryFiles.canonicalize_eq_ok_iff.mp hfound
    obtain ⟨other, hother, -⟩ := hfile _ hx
    rw [MemoryFiles.file?_congr (MemoryFiles.key_normalize p)] at hother
    exact MemoryFiles.canonicalize_eq_ok_iff.mpr ⟨rfl, by rw [hother]; rfl⟩
  · obtain ⟨old, hold⟩ := MemoryFiles.exists_file_of_source hsource
    -- the compile read a source, and so not the artifact that it replaced
    have hne : MemoryFiles.key x ≠ b.artifactKey source := fun heq =>
      MemoryFiles.not_source_of_mark hold (h.own old (heq ▸ hold)) d hsource
    obtain ⟨other, hother, hle⟩ := hfile x hx
    obtain rfl : other = old :=
      Option.some.inj ((h.unchanged _ other hne hother hle).symm.trans hold)
    rwa [MemoryFiles.source_eq hother, ← MemoryFiles.source_eq hold]

/-- **A fresh artifact is as good as a compile** over the files of now. -/
theorem Origin.serves {t : Store σ} {a : Artifact} (hparallel : b.config.parallel = false)
    (huniform : b.Uniform) (h : b.Origin fs source file s before o finished) (ht : b.stores t)
    (hdecode : Artifact.decode file.bytes = .ok a)
    (hfresh : ∀ q ∈ dependencies a.dict, ∃ other, fs.file? q = some other ∧
      other.modified ≤ file.modified) :
    SameOutcome (.ok (⟨a.dict, [], a.compressed, true⟩, []))
      ((b.compiler fs).compileFile t source).outcome := by
  obtain ⟨hcompressed, hdict, hfiles⟩ := Artifact.decode_encode_eq
    (Compiler.wellFormed_of_compileFile h.compiled) h.encoded hdecode
  rw [show dependencies a.dict = o.files from hfiles] at hfresh
  have hagain := Compiler.compileFile_again hparallel h.compiled h.clean (h.matches hfresh)
  have hserved : SameOutcome (.ok (⟨a.dict, [], a.compressed, true⟩, []))
      ((b.compiler fs).compileFile s source).outcome := by
    show SameOutcome _
      (Compiler.compileFile { b.compiler before with files := fs } s source).outcome
    rw [hagain]
    exact .output hdict h.clean.symm hcompressed
  exact hserved.trans (huniform s t h.store ht fs source)

/-! ### Every artifact comes from somewhere -/

/-- Every artifact of a source comes from a compile of it. -/
structure Sound (b : Build σ) (fs : MemoryFiles) : Prop where
  timed : fs.Timed
  origin : ∀ source file, b.sources source → fs.files.get? (b.artifactKey source) = some file →
    ∃ s before o finished, b.Origin fs source file s before o finished

theorem sound_empty : b.Sound .empty := ⟨MemoryFiles.timed_empty, fun _ _ _ h => nomatch h⟩

theorem Sound.changes {name : String} (h : b.Sound fs) (hchange : MemoryFiles.Changes name fs fs')
    (hname : ∀ source, b.sources source → b.artifactKey source ≠ name) : b.Sound fs' := by
  refine ⟨hchange.timed, fun source file hsource hfile => ?_⟩
  rw [hchange.others _ (hname source hsource)] at hfile
  obtain ⟨s, before, o, finished, horigin⟩ := h.origin source file hsource hfile
  exact ⟨s, before, o, finished, horigin.changes (h.timed.modified_le _ file hfile) hchange⟩

/-- Where an output without errors is saved, the new artifact comes from its compile, and the
others from theirs. -/
theorem Sound.save (hapart : b.Apart) (h : b.Sound fs) (hs : b.stores s)
    (hsource : b.sources source)
    (hcompiled : ((b.compiler fs).compileFile s source).outcome = .ok (o, finished))
    (hclean : o.errors = []) :
    b.Sound (Artifact.save fs (b.artifactPath source) ⟨o.dict, o.compress⟩).2 := by
  unfold Artifact.save
  cases hencoded : Artifact.encode ⟨o.dict, o.compress⟩ with
  | error fault => exact h
  | ok bytes =>
    show b.Sound (fs.insert (b.artifactPath source) bytes)
    have hchange := MemoryFiles.changes_insert h.timed (b.artifactPath source) bytes
    refine ⟨hchange.timed, fun other file hother hfile => ?_⟩
    rcases eq_or_ne other source with rfl | hne
    · refine ⟨s, fs, o, finished, hs, hcompiled, hclean, ?_, fun name found hname hfound _ => ?_,
        fun old hold => ?_⟩
      · change (fs.files.insert (b.artifactKey other) _).get? (b.artifactKey other) =
          some file at hfile
        rw [Dict.get?_insert_self] at hfile
        cases hfile
        exact hencoded
      · exact hchange.others name hname ▸ hfound
      · obtain ⟨_, _, _, _, horigin⟩ := h.origin other old hother hold
        exact horigin.mark
    · rw [hchange.others _ fun heq => hne (hapart.eq_of_key hother hsource heq)] at hfile
      obtain ⟨s, before, o, finished, horigin⟩ := h.origin other file hother hfile
      exact ⟨s, before, o, finished, horigin.changes (h.timed.modified_le _ file hfile) hchange⟩

theorem canonicalize_source {x : Path} (h : FileSystem.canonicalize fs p = .ok x) :
    x = p.normalize ∧ FileSystem.canonicalize fs x = .ok x := by
  obtain ⟨rfl, hfile⟩ := MemoryFiles.canonicalize_eq_ok_iff.mp h
  refine ⟨rfl, MemoryFiles.canonicalize_eq_ok_iff.mpr ⟨p.normalize_normalize.symm, ?_⟩⟩
  rwa [MemoryFiles.file?_congr (MemoryFiles.key_normalize p)]

/-- **Every step leaves every artifact with an origin.** -/
theorem Sound.step (hapart : b.Apart) (h : b.Sound fs) (hstep : b.Step fs fs') :
    b.Sound fs' := by
  cases hstep with
  | insert p bytes hp =>
    exact h.changes (MemoryFiles.changes_insert h.timed p bytes) fun x _ =>
      artifactKey_ne_of_not_below hp x
  | touch p hp =>
    exact h.changes (MemoryFiles.changes_touch h.timed p) fun x _ =>
      artifactKey_ne_of_not_below hp x
  | remove p hp =>
    exact h.changes (MemoryFiles.changes_remove h.timed p) fun x _ =>
      artifactKey_ne_of_not_below hp x
  | compile s p hs hp =>
    rcases (b.compiler fs).compileCached_cases s p fun _ hx => (canonicalize_source hx).2 with
      ⟨source, a, -, -, hserved⟩ |
      ⟨-, hsame | ⟨source, o, finished, hfound, hcompiled, hclean, hsaved⟩⟩
    · rw [hserved]
      exact h
    · rw [hsame]
      exact h
    · rw [hsaved]
      obtain ⟨rfl, -⟩ := canonicalize_source hfound
      exact h.save hapart hs hp hcompiled hclean

theorem Reachable.sound (hapart : b.Apart) (h : b.Reachable fs) : b.Sound fs := by
  induction h with
  | start => exact sound_empty
  | step _ hstep ih => exact ih.step hapart hstep

/-- **A compile through its artifact is as good as a compile**, at any time of a build by one
worker: it gives an equal tree, the same diagnostics and the same flag, or the same panic. Sources
have artifacts of their own, and callbacks do not tell the stores of the build apart. -/
theorem Reachable.compileCached_same (hparallel : b.config.parallel = false) (hapart : b.Apart)
    (huniform : b.Uniform) (h : b.Reachable fs) (hs : b.stores s) (hp : b.sources p.normalize) :
    SameOutcome ((b.compiler fs).compileCached s p).outcome
      ((b.compiler fs).compileFile s p).outcome := by
  rcases (b.compiler fs).compileCached_cases s p fun _ hx => (canonicalize_source hx).2 with
    ⟨source, a, hfound, hread, hserved⟩ | ⟨hcompiled, -⟩
  · rw [hserved, Compiler.compileFile_source hfound (canonicalize_source hfound).2]
    obtain ⟨rfl, -⟩ := canonicalize_source hfound
    obtain ⟨file, hfile, hdecode, hfresh⟩ := MemoryFiles.exists_of_readFresh hread
    obtain ⟨_, _, _, _, horigin⟩ := (h.sound hapart).origin _ file hp hfile
    exact horigin.serves hparallel huniform hs hdecode hfresh
  · rw [hcompiled]
    exact (b.compiler fs).sameOutcome_compileFile s p

/-! ### A build of two sources -/

/-- Two sources, where every compile starts from the empty store. -/
def pair : Build Item where
  config := (Config.initial ⟨"/cache"⟩).withParallel false
  registry := Item.registry
  stores := (· = .empty)
  sources p := p ∈ [Path.mk "/a.json", Path.mk "/b.json"]

theorem pair_apart : pair.Apart := by
  have h : ∀ x ∈ [Path.mk "/a.json", Path.mk "/b.json"],
      ∀ y ∈ [Path.mk "/a.json", Path.mk "/b.json"],
      pair.artifactPath x = pair.artifactPath y → x = y := by decide +kernel
  exact fun x y hx hy => h x hx y hy

theorem pair_uniform : pair.Uniform := uniform_of_subsingleton fun _ _ hs ht => hs.trans ht.symm

/-- The first source imports the second one, and asks not to be compressed. -/
def pairWritten : MemoryFiles :=
  (MemoryFiles.empty.insert ⟨"/b.json"⟩ (Bytes.ofString "\x7b\"name\":\"b\"\x7d")).insert
    ⟨"/a.json"⟩ (Bytes.ofString "\x7b\"import\":\"b.json\",\"compress\":false\x7d")

/-- The first source was compiled, and then a file came that it does not depend on. -/
def pairCompiled : MemoryFiles :=
  ((pair.compiler pairWritten).compileCached .empty ⟨"/a.json"⟩).files.insert ⟨"/c.json"⟩ []

theorem pair_sources : pair.sources (Path.mk "/a.json").normalize := by
  have h : (Path.mk "/a.json").normalize = ⟨"/a.json"⟩ := by decide +kernel
  rw [h]
  exact List.mem_cons_self

theorem reachable_pairCompiled : pair.Reachable pairCompiled := by
  have houtside : ∀ p ∈ [Path.mk "/a.json", Path.mk "/b.json", Path.mk "/c.json"],
      ¬ p.Below ⟨"/cache"⟩ := by decide +kernel
  have hwritten : pair.Reachable pairWritten :=
    (Reachable.start.step (.insert ⟨"/b.json"⟩ _ (houtside _ (by simp)))).step
      (.insert ⟨"/a.json"⟩ _ (houtside _ (by simp)))
  exact (hwritten.step (.compile .empty ⟨"/a.json"⟩ rfl pair_sources)).step
    (.insert ⟨"/c.json"⟩ [] (houtside _ (by simp)))

/-- The artifact of the first source is served, and is as good as a compile. -/
theorem compileCached_same_pair :
    (match ((pair.compiler pairCompiled).compileCached .empty ⟨"/a.json"⟩).outcome with
      | .ok (o, _) => o.fromCache
      | .error _ => false) = true ∧
    SameOutcome ((pair.compiler pairCompiled).compileCached .empty ⟨"/a.json"⟩).outcome
      ((pair.compiler pairCompiled).compileFile .empty ⟨"/a.json"⟩).outcome := by
  refine ⟨by decide +kernel, ?_⟩
  exact reachable_pairCompiled.compileCached_same rfl pair_apart pair_uniform rfl pair_sources

end Build

end ResourceTree
