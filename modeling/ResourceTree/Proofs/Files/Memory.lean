import ResourceTree.Files.Memory
import ResourceTree.Proofs.Compile.Traced
import ResourceTree.Proofs.Dict.Lookup

/-!
# Files in memory — keys, times, and what a change leaves alone

* `key_eq_iff`, `below_of_key_eq`: paths that name the same file;
* `canonicalize_eq_ok_iff`, `source_congr`: what is found and read depends on the file alone;
* `MemoryFiles.Timed`: no file is newer than the clock;
* **`MemoryFiles.Changes`**: a change of one file, after which a file is either as it was or newer
  than all before; `changes_insert`, `changes_touch`, `changes_remove`.
-/

namespace ResourceTree

namespace MemoryFiles

variable {fs fs' : MemoryFiles} {p q dir : Path}

/-! ## Keys -/

theorem key_eq_iff : key p = key q ↔ p.normalize = q.normalize :=
  ⟨fun h => Path.mk.injEq _ _ ▸ h, fun h => congrArg Path.text h⟩

theorem key_normalize (p : Path) : key p.normalize = key p :=
  congrArg Path.text p.normalize_normalize

theorem key_congr (h : p.components = q.components) : key p = key q :=
  congrArg Path.text (Path.normalize_congr h)

theorem file?_congr (h : key p = key q) : fs.file? p = fs.file? q := congrArg fs.files.get? h

theorem below_of_key_eq (h : key p = key q) (hp : p.Below dir) : q.Below dir := by
  have hn := key_eq_iff.mp h
  exact ⟨(Path.isAbsolute_normalize q).symm.trans (hn ▸ (Path.isAbsolute_normalize p).trans hp.1),
    Path.normalNames_normalize q ▸ hn ▸ (Path.normalNames_normalize p).symm ▸ hp.2⟩

/-! ## Finding and reading -/

/-- **What is found is the normal form of a path with a file.** -/
theorem canonicalize_eq_ok_iff {x : Path} :
    FileSystem.canonicalize fs p = .ok x ↔ x = p.normalize ∧ (fs.file? p).isSome = true := by
  have hfile : fs.file? p.normalize = fs.file? p := file?_congr (key_normalize p)
  show ((fun _ => p.normalize) <$> fs.find p.normalize) = .ok x ↔ _
  unfold find
  rw [hfile]
  cases fs.file? p with
  | none => exact iff_of_false nofun nofun
  | some file =>
    exact ⟨fun h => ⟨(Except.ok.inj h).symm, rfl⟩, fun h => congrArg Except.ok h.1.symm⟩

theorem canonicalize_again {file : Path} (h : FileSystem.canonicalize fs p = .ok file) :
    FileSystem.canonicalize fs file = .ok file := by
  obtain ⟨rfl, hfile⟩ := canonicalize_eq_ok_iff.mp h
  refine canonicalize_eq_ok_iff.mpr ⟨p.normalize_normalize.symm, ?_⟩
  rwa [file?_congr (key_normalize p)]

theorem read_of_file? {file : MemoryFile} (h : fs.file? p = some file) :
    FileSystem.read fs p = .ok file.bytes := by
  show (·.bytes) <$> fs.find p = .ok file.bytes
  unfold find
  rw [h]
  rfl

theorem modified_of_file? {file : MemoryFile} (h : fs.file? p = some file) :
    FileSystem.modified fs p = .ok file.modified := by
  show (·.modified) <$> fs.find p = .ok file.modified
  unfold find
  rw [h]
  rfl

theorem modified_of_file?_none (h : fs.file? p = none) :
    FileSystem.modified fs p = .error (.notFound p.text) := by
  show (·.modified) <$> fs.find p = .error (.notFound p.text)
  unfold find
  rw [h]
  rfl

theorem source_eq {file : MemoryFile} (h : fs.file? p = some file) :
    (FileView.of fs).source p = (textOfFile p file.bytes).bind Json.parseSource := by
  have hread : (FileView.of fs).read p = .ok file.bytes := read_of_file? h
  unfold FileView.source FileView.readText
  rw [hread]
  rfl

theorem exists_file_of_source {d : Dict Value} (h : (FileView.of fs).source p = .ok d) :
    ∃ file, fs.file? p = some file := by
  cases hfile : fs.file? p with
  | some file => exact ⟨file, rfl⟩
  | none =>
    have hread : (FileView.of fs).read p = .error (.notFound p.text) := by
      show (·.bytes) <$> fs.find p = .error (.notFound p.text)
      unfold find
      rw [hfile]
      rfl
    unfold FileView.source FileView.readText at h
    rw [hread] at h
    cases h

/-! ## Changes -/

/-- Names are kept once, and no file is newer than the clock. -/
structure Timed (fs : MemoryFiles) : Prop where
  wellFormed : fs.files.WellFormed
  modified_le : ∀ name file, fs.files.get? name = some file → file.modified ≤ fs.clock

/-- **A change of at most the file under one name**: a file is as it was or newer than all
before. -/
structure Changes (name : String) (fs fs' : MemoryFiles) : Prop where
  timed : fs'.Timed
  clock_le : fs.clock ≤ fs'.clock
  others : ∀ other, other ≠ name → fs'.files.get? other = fs.files.get? other
  newer : ∀ file, fs'.files.get? name = some file →
    fs.files.get? name = some file ∨ fs.clock < file.modified

theorem timed_empty : empty.Timed := ⟨Dict.wellFormed_empty, fun _ _ h => nomatch h⟩

/-- A file that is put in place with the time of a new clock. -/
theorem changes_put (h : fs.Timed) (name : String) (bytes : Bytes) :
    Changes name fs ⟨fs.files.insert name ⟨bytes, fs.clock + 1⟩, fs.clock + 1⟩ where
  timed := by
    refine ⟨Dict.wellFormed_insert h.wellFormed, fun other file hfile => ?_⟩
    rw [Dict.get?_insert] at hfile
    split_ifs at hfile
    · cases hfile
      exact Nat.le_refl _
    · exact (h.modified_le other file hfile).trans (Nat.le_succ _)
  clock_le := Nat.le_succ _
  others other hne := by rw [Dict.get?_insert, if_neg hne]
  newer file hfile := by
    rw [Dict.get?_insert_self] at hfile
    cases hfile
    exact .inr (Nat.lt_succ_self _)

theorem changes_insert (h : fs.Timed) (p : Path) (bytes : Bytes) :
    Changes (key p) fs (fs.insert p bytes) := changes_put h (key p) bytes

theorem changes_touch (h : fs.Timed) (p : Path) : Changes (key p) fs (fs.touch p).2 := by
  unfold touch
  cases hfile : fs.file? p with
  | some file => exact changes_put h (key p) file.bytes
  | none =>
    exact ⟨⟨h.wellFormed, fun name file hf => (h.modified_le name file hf).trans (Nat.le_succ _)⟩,
      Nat.le_succ _, fun _ _ => rfl, fun _ hf => .inl hf⟩

theorem changes_remove (h : fs.Timed) (p : Path) : Changes (key p) fs (fs.remove p).2 where
  timed := by
    refine ⟨Dict.wellFormed_erase h.wellFormed, fun other file hfile => ?_⟩
    change (fs.files.erase (key p)).get? other = some file at hfile
    rw [Dict.get?_erase h.wellFormed] at hfile
    split_ifs at hfile
    exact h.modified_le other file hfile
  clock_le := Nat.le_refl _
  others other hne := by
    show (fs.files.erase (key p)).get? other = _
    rw [Dict.get?_erase h.wellFormed, if_neg hne]
  newer file hfile := by
    change (fs.files.erase (key p)).get? (key p) = some file at hfile
    rw [Dict.get?_erase h.wellFormed, if_pos rfl] at hfile
    cases hfile

end MemoryFiles

end ResourceTree
