import ResourceTree.Proofs.Compile.Cached

/-!
# Dependencies — two compiles over files in memory

An output lists every file that its compile looked at. Over any other files that hold the same there,
a compile gives the same output, however the two differ elsewhere: in files that are not listed, in
the times of writes, in what lies in the directory of artifacts.

* `MemoryFiles.AgreeOn`: files that hold what others hold, at some paths;
* `AgreeOn.file?`, `AgreeOn.matches`: they show the same of these paths, and of those that name the
  same files;
* **`compileFile_of_agreeOn`**: the listed files decide an output without errors.
-/

namespace ResourceTree

namespace MemoryFiles

variable {fs fs' : MemoryFiles} {p : Path} {paths : List Path} {bytes : Bytes}

/-- Wherever a file lies at one of the paths, the others hold one with the same contents there. -/
def AgreeOn (fs fs' : MemoryFiles) (paths : List Path) : Prop :=
  ∀ p ∈ paths, ∀ bytes, FileSystem.read fs p = .ok bytes → FileSystem.read fs' p = .ok bytes

theorem exists_file_of_read (h : FileSystem.read fs p = .ok bytes) :
    ∃ file, fs.file? p = some file ∧ file.bytes = bytes := by
  change (·.bytes) <$> fs.find p = .ok bytes at h
  unfold find at h
  cases hfile : fs.file? p with
  | none =>
    rw [hfile] at h
    cases h
  | some file =>
    rw [hfile] at h
    exact ⟨file, rfl, Except.ok.inj h⟩

theorem AgreeOn.file? {file : MemoryFile} (h : fs.AgreeOn fs' paths) (hp : p.Among paths)
    (hfile : fs.file? p = some file) : ∃ other, fs'.file? p = some other ∧
      other.bytes = file.bytes := by
  obtain ⟨q, hq, hcomponents⟩ := hp
  have hkey : key p = key q := key_congr hcomponents
  have hthere : fs.file? q = some file := file?_congr hkey ▸ hfile
  obtain ⟨other, hother, hbytes⟩ := exists_file_of_read (h q hq file.bytes (read_of_file? hthere))
  exact ⟨other, file?_congr hkey ▸ hother, hbytes⟩

/-- **Files that agree on some paths show a compile the same of them.** -/
theorem AgreeOn.matches (h : fs.AgreeOn fs' paths) :
    (FileView.of fs).Matches (FileView.of fs') paths := by
  refine ⟨fun {p x} hfound hx => ?_, fun {x d} hsource hx => ?_⟩
  · obtain ⟨rfl, hfile⟩ := canonicalize_eq_ok_iff.mp hfound
    obtain ⟨file, hfile⟩ := Option.isSome_iff_exists.mp hfile
    have hsame : ∀ files : MemoryFiles, files.file? p.normalize = files.file? p := fun _ =>
      file?_congr (key_normalize p)
    obtain ⟨other, hother, -⟩ := h.file? hx ((hsame fs).trans hfile)
    rw [hsame fs'] at hother
    exact canonicalize_eq_ok_iff.mpr ⟨rfl, Option.isSome_iff_exists.mpr ⟨other, hother⟩⟩
  · obtain ⟨file, hfile⟩ := exists_file_of_source hsource
    obtain ⟨other, hother, hbytes⟩ := h.file? hx hfile
    rw [source_eq hfile] at hsource
    rw [source_eq hother, hbytes]
    exact hsource

end MemoryFiles

namespace Compiler

variable {σ : Type} [ObjectClass σ] {config : Config} {registry : Registry σ} {s : Store σ}
  {path : Path} {fs fs' : MemoryFiles} {o : Output} {finished : List ObjectRef}

/-- **The files that an output lists are all that it depends on.** Where a compile by one worker
gives an output without errors, and other files agree with those it was compiled from on every path
that the output lists, the same compile over them gives no errors either, an equal tree, the same
flag and the same list. -/
theorem compileFile_of_agreeOn (hparallel : config.parallel = false)
    (h : (Compiler.mk config registry fs |>.compileFile s path).outcome = .ok (o, finished))
    (ho : o.errors = []) (hagree : fs.AgreeOn fs' o.files) :
    ∃ o', (Compiler.mk config registry fs' |>.compileFile s path).outcome = .ok (o', finished) ∧
      o'.errors = [] ∧ (o'.dict == o.dict) = true ∧ o'.compress = o.compress ∧
      o'.files = o.files := by
  have hagain := compileFile_again (c := ⟨config, registry, fs⟩) hparallel h ho hagree.matches
  exact ⟨o, hagain, ho, Dict.beq_refl (wellFormed_of_compileFile h), rfl, rfl⟩

end Compiler

namespace Build

/-- The first source of the pair depends on both sources: another file, the artifact that lies there
and the times of writes make no difference. -/
theorem compileFile_of_agreeOn_pair :
    ∃ o finished, ((pair.compiler pairWritten).compileFile .empty ⟨"/a.json"⟩).outcome =
        .ok (o, finished) ∧
      o.errors = [] ∧ o.files.length = 2 ∧ pairWritten.AgreeOn pairCompiled o.files ∧
      ∃ o', ((pair.compiler pairCompiled).compileFile .empty ⟨"/a.json"⟩).outcome =
        .ok (o', finished) ∧ o'.errors = [] ∧ (o'.dict == o.dict) = true ∧
        o'.compress = o.compress ∧ o'.files = o.files := by
  have hlisted : ((pair.compiler pairWritten).compileFile .empty ⟨"/a.json"⟩).outcome.toOption.map
      (fun result => (result.1.errors, result.1.files)) =
        some ([], [⟨"/a.json"⟩, ⟨"/b.json"⟩]) := by
    decide +kernel
  have hread : ∀ p ∈ [Path.mk "/a.json", Path.mk "/b.json"],
      (FileSystem.read pairCompiled p).toOption = (FileSystem.read pairWritten p).toOption := by
    decide +kernel
  generalize hrun : ((pair.compiler pairWritten).compileFile .empty ⟨"/a.json"⟩).outcome =
    outcome at hlisted ⊢
  rcases outcome with panic | ⟨o, finished⟩
  · cases hlisted
  · obtain ⟨ho, hfiles⟩ := Prod.mk.inj (Option.some.inj hlisted)
    have hagree : pairWritten.AgreeOn pairCompiled o.files := by
      intro p hp bytes hbytes
      have hsame := hread p (hfiles ▸ hp)
      rw [hbytes] at hsame
      cases hthere : FileSystem.read pairCompiled p with
      | error e => simp [hthere, Except.toOption] at hsame
      | ok other => simpa [hthere, Except.toOption] using hsame
    exact ⟨o, finished, rfl, ho, by rw [hfiles]; rfl, hagree,
      Compiler.compileFile_of_agreeOn rfl hrun ho hagree⟩

end Build

end ResourceTree
