import Mathlib.Data.List.Induction
import ResourceTree.Proofs.Compile.Cached

/-!
# Edits during a compile — what a fresh artifact promises

Freshness compares the times of files with the time at which the artifact was written, not with the
times at which the compile read them. An edit between the two goes unnoticed, one after the write
does not.

* `MemoryFiles.Edit`, `edited`: changes of files by others, one after the other;
* `bytes_edit`, **`bytes_edited`**: where the octets of a file come from;
* `unchanged_of_le`: a file that is not newer than a time was not edited since;
* **`Compiler.unchanged_since_saved`**: what the files of a fresh artifact are;
* `Compiler.swapped`: a source that is replaced while it is compiled.
-/

namespace ResourceTree

namespace MemoryFiles

/-- A change of a file by others. -/
inductive Edit where
  | insert (p : Path) (bytes : Bytes)
  | touch (p : Path)
  | remove (p : Path)

namespace Edit

/-- The path that an edit is about. -/
def path : Edit → Path
  | insert p _ | touch p | remove p => p

/-- The octets that an edit gives to a file. -/
def written (q : Path) : Edit → Option Bytes
  | insert p bytes => if key p = key q then some bytes else none
  | touch _ | remove _ => none

end Edit

/-- The files after an edit. -/
def edit (fs : MemoryFiles) : Edit → MemoryFiles
  | .insert p bytes => fs.insert p bytes
  | .touch p => (fs.touch p).2
  | .remove p => (fs.remove p).2

/-- The files after edits, the first one first. -/
def edited (fs : MemoryFiles) (edits : List Edit) : MemoryFiles := edits.foldl edit fs

variable {fs : MemoryFiles} {p q : Path} {file : MemoryFile} {e : Edit} {edits : List Edit}

/-! ## One edit -/

theorem changes_edit (h : fs.Timed) (e : Edit) : Changes (key e.path) fs (fs.edit e) := by
  cases e with
  | insert p bytes => exact changes_insert h p bytes
  | touch p => exact changes_touch h p
  | remove p => exact changes_remove h p

theorem file?_edit_of_ne (h : fs.Timed) (hne : key e.path ≠ key q) :
    (fs.edit e).file? q = fs.file? q := (changes_edit h e).others _ hne.symm

theorem file?_insert (fs : MemoryFiles) (p q : Path) (bytes : Bytes) :
    (fs.insert p bytes).file? q =
      if key q = key p then some ⟨bytes, fs.clock + 1⟩ else fs.file? q :=
  Dict.get?_insert ..

/-- **The octets of a file after an edit** are those that it was given, or those that it had. -/
theorem bytes_edit (h : fs.Timed) (hfile : (fs.edit e).file? q = some file) :
    e.written q = some file.bytes ∨
      e.written q = none ∧ ∃ old, fs.file? q = some old ∧ old.bytes = file.bytes := by
  by_cases hkey : key e.path = key q
  case neg =>
    rw [file?_edit_of_ne h hkey] at hfile
    refine .inr ⟨?_, file, hfile, rfl⟩
    cases e with
    | insert p bytes => exact if_neg hkey
    | touch p => rfl
    | remove p => rfl
  case pos =>
    cases e with
    | insert p bytes =>
      change key p = key q at hkey
      change (fs.insert p bytes).file? q = some file at hfile
      rw [file?_insert, if_pos hkey.symm] at hfile
      cases hfile
      exact .inl (if_pos hkey)
    | touch p =>
      change key p = key q at hkey
      change (fs.touch p).2.file? q = some file at hfile
      have hold : fs.file? p = fs.file? q := file?_congr hkey
      cases hq : fs.file? q with
      | none =>
        rw [hq] at hold
        unfold touch at hfile
        rw [hold] at hfile
        cases hq.symm.trans hfile
      | some old =>
        have htouch : (fs.touch p).2 = fs.insert p old.bytes := by
          unfold touch
          rw [hold, hq]
          rfl
        rw [htouch, file?_insert, if_pos hkey.symm] at hfile
        cases hfile
        exact .inr ⟨rfl, old, rfl, rfl⟩
    | remove p =>
      change key p = key q at hkey
      change (fs.files.erase (key p)).get? (key q) = some file at hfile
      rw [Dict.get?_erase h.wellFormed, if_pos hkey.symm] at hfile
      cases hfile

/-! ## Edits in a row -/

theorem edited_append (edits : List Edit) (e : Edit) :
    fs.edited (edits ++ [e]) = (fs.edited edits).edit e := by simp [edited]

theorem Timed.edited (h : fs.Timed) (edits : List Edit) : (fs.edited edits).Timed := by
  induction edits generalizing fs with
  | nil => exact h
  | cons e edits ih => exact ih (changes_edit h e).timed

theorem file?_edited_of_ne (h : fs.Timed) (hne : ∀ e ∈ edits, key e.path ≠ key q) :
    (fs.edited edits).file? q = fs.file? q := by
  induction edits generalizing fs with
  | nil => rfl
  | cons e edits ih =>
    obtain ⟨he, hedits⟩ := List.forall_mem_cons.mp hne
    exact (ih (changes_edit h e).timed hedits).trans (file?_edit_of_ne h he)

/-- **The octets of a file after edits** are the last that it was given, or those that it had. -/
theorem bytes_edited (h : fs.Timed) (hfile : (fs.edited edits).file? q = some file) :
    (edits.filterMap (·.written q)).getLast? = some file.bytes ∨
      edits.filterMap (·.written q) = [] ∧
        ∃ old, fs.file? q = some old ∧ old.bytes = file.bytes := by
  induction edits using List.reverseRecOn generalizing file with
  | nil => exact .inr ⟨rfl, file, hfile, rfl⟩
  | append_singleton edits e ih =>
    rw [edited_append] at hfile
    rw [List.filterMap_append]
    rcases bytes_edit (h.edited edits) hfile with hnew | ⟨hnone, old, hold, hbytes⟩
    · left
      rw [List.filterMap_cons_some hnew, List.filterMap_nil]
      exact List.getLast?_concat ..
    · rw [List.filterMap_cons_none hnone, List.filterMap_nil, List.append_nil, ← hbytes]
      exact ih hold

/-- **A file that is not newer than a time was not edited since**: it is the one that lay there. -/
theorem unchanged_of_le {time : Nat} (h : fs.Timed) (htime : time ≤ fs.clock)
    (hfile : (fs.edited edits).file? q = some file) (hle : file.modified ≤ time) :
    fs.file? q = some file := by
  induction edits generalizing fs with
  | nil => exact hfile
  | cons e edits ih =>
    have hchange := changes_edit h e
    have hnext := ih hchange.timed (htime.trans hchange.clock_le) hfile
    by_cases hkey : key e.path = key q
    · refine (hchange.newer file (hkey ▸ hnext)).elim (fun hsame => ?_) fun hnew => ?_
      · exact (congrArg fs.files.get? hkey.symm).trans hsame
      · omega
    · exact (file?_edit_of_ne h hkey).symm.trans hnext

end MemoryFiles

/-! ## Saved after edits -/

namespace Compiler

open MemoryFiles (Edit key)

variable {σ : Type} [ObjectClass σ] {c : Compiler MemoryFiles σ} {s : Store σ}
  {path target : Path} {o : Output} {finished : List ObjectRef} {saved : MemoryFiles}
  {edits later : List Edit} {a : Artifact}

/-- **The files of a fresh artifact.** An output of `c.compileFile` is saved after `edits`, and
read when files other than the artifact have been changed by `later` edits. If the artifact is
served, then every other file that the output lists lies there as it lay when the artifact was
written. It has the octets that the last of `edits` to write it gave it, and where none wrote it,
the octets that the compile read. -/
theorem unchanged_since_saved (htimed : c.files.Timed)
    (hcompiled : (c.compileFile s path).outcome = .ok (o, finished))
    (hsaved : Artifact.save (c.files.edited edits) target ⟨o.dict, o.compress⟩ = (.ok (), saved))
    (hlater : ∀ e ∈ later, key e.path ≠ key target)
    (hfresh : Artifact.readFresh (saved.edited later) target = some a)
    {q : Path} (hq : q ∈ o.files) (hne : key q ≠ key target) :
    ∃ file, (saved.edited later).file? q = some file ∧
      (c.files.edited edits).file? q = some file ∧
      ((edits.filterMap (·.written q)).getLast? = some file.bytes ∨
        edits.filterMap (·.written q) = [] ∧
          ∃ old, c.files.file? q = some old ∧ old.bytes = file.bytes) := by
  have hmeanwhile := htimed.edited edits
  generalize hfs : c.files.edited edits = fs at hsaved hmeanwhile
  unfold Artifact.save at hsaved
  split at hsaved
  · cases hsaved
  next bytes hencode =>
    obtain rfl : fs.insert target bytes = saved := (Prod.mk.inj hsaved).2
    have hwritten := MemoryFiles.changes_insert hmeanwhile target bytes
    -- what is served is what was saved, at the time of the write
    obtain ⟨served, hserved, hdecode, hold⟩ := MemoryFiles.exists_of_readFresh hfresh
    rw [MemoryFiles.file?_edited_of_ne hwritten.timed hlater, MemoryFiles.file?_insert,
      if_pos rfl] at hserved
    cases hserved
    obtain ⟨-, -, hfiles⟩ :=
      Artifact.decode_encode_eq (wellFormed_of_compileFile hcompiled) hencode hdecode
    rw [show dependencies a.dict = o.files from hfiles] at hold
    obtain ⟨file, hfile, hle⟩ := hold q hq
    -- so no edit has touched the listed file since
    have hsince : (fs.insert target bytes).file? q = some file :=
      MemoryFiles.unchanged_of_le hwritten.timed (Nat.le_refl _) hfile hle
    rw [MemoryFiles.file?_insert, if_neg hne] at hsince
    refine ⟨file, hfile, hsince, ?_⟩
    rw [← hfs] at hsince
    exact MemoryFiles.bytes_edited htimed hsince

/-! ### A source that is replaced -/

/-- A source that imports another one, and asks not to be compressed. -/
def swapped : Compiler MemoryFiles Item where
  config := (Config.initial ⟨"/cache"⟩).withParallel false
  registry := Item.registry
  files := (MemoryFiles.empty.insert ⟨"/b.json"⟩ (Bytes.ofString "\x7b\"x\":1\x7d")).insert
    ⟨"/a.json"⟩ (Bytes.ofString "\x7b\"import\":\"b.json\",\"compress\":false\x7d")

/-- While the source is compiled, somebody replaces what it imports. -/
def swap : List Edit :=
  [.touch ⟨"/a.json"⟩, .insert ⟨"/b.json"⟩ (Bytes.ofString "\x7b\"x\":2\x7d")]

/-- Where the artifact of the source lies. -/
def swappedTarget : Path := swapped.artifactPath ⟨"/a.json"⟩

/-- The source is compiled without diagnostics, and its output saved after `swap`. The artifact is
served, also when another file has come since. -/
theorem exists_output_swapped : ∃ o finished saved,
    (swapped.compileFile .empty ⟨"/a.json"⟩).outcome = .ok (o, finished) ∧ o.errors = [] ∧
    ⟨"/b.json"⟩ ∈ o.files ∧
    Artifact.save (swapped.files.edited swap) swappedTarget ⟨o.dict, o.compress⟩ =
      (.ok (), saved) ∧
    (Artifact.readFresh saved swappedTarget).isSome ∧
    (Artifact.readFresh (saved.edited [.insert ⟨"/c.json"⟩ []]) swappedTarget).isSome := by
  have hcheck : ((swapped.compileFile .empty ⟨"/a.json"⟩).outcome.toOption.any fun result =>
      result.1.isOk && decide (⟨"/b.json"⟩ ∈ result.1.files) &&
        match Artifact.save (swapped.files.edited swap) swappedTarget
            ⟨result.1.dict, result.1.compress⟩ with
        | (.error _, _) => false
        | (.ok (), saved) => (Artifact.readFresh saved swappedTarget).isSome &&
            (Artifact.readFresh (saved.edited [.insert ⟨"/c.json"⟩ []]) swappedTarget).isSome) =
      true := by decide +kernel
  rcases houtcome : (swapped.compileFile .empty ⟨"/a.json"⟩).outcome with crash | ⟨o, finished⟩
  · rw [houtcome] at hcheck
    cases hcheck
  · rw [houtcome] at hcheck
    simp only [Except.toOption, Option.any_some, Bool.and_eq_true, decide_eq_true_eq,
      Output.isOk, List.isEmpty_iff] at hcheck
    obtain ⟨⟨hok, hlisted⟩, hcheck⟩ := hcheck
    split at hcheck
    · cases hcheck
    next saved hsaved =>
      exact ⟨o, finished, saved, rfl, hok, hlisted, hsaved, Bool.and_eq_true_iff.mp hcheck⟩

/-- The artifact is fresh, and the source of what is in it is gone. -/
theorem fresh_though_swapped : ∃ o finished saved a old file,
    (swapped.compileFile .empty ⟨"/a.json"⟩).outcome = .ok (o, finished) ∧ o.errors = [] ∧
    Artifact.save (swapped.files.edited swap) swappedTarget ⟨o.dict, o.compress⟩ =
      (.ok (), saved) ∧
    Artifact.readFresh saved swappedTarget = some a ∧ ⟨"/b.json"⟩ ∈ o.files ∧
    swapped.files.file? ⟨"/b.json"⟩ = some old ∧
    (swapped.files.edited swap).file? ⟨"/b.json"⟩ = some file ∧ old.bytes ≠ file.bytes := by
  obtain ⟨o, finished, saved, houtcome, hok, hlisted, hsaved, hfresh, -⟩ := exists_output_swapped
  obtain ⟨a, ha⟩ := Option.isSome_iff_exists.mp hfresh
  refine ⟨o, finished, saved, a, ⟨Bytes.ofString "\x7b\"x\":1\x7d", 1⟩,
    ⟨Bytes.ofString "\x7b\"x\":2\x7d", 4⟩, houtcome, hok, hsaved, ha, hlisted, ?_, ?_, ?_⟩
  · rfl
  · rfl
  · decide

theorem timed_swapped : swapped.files.Timed :=
  have hfirst := (MemoryFiles.changes_insert MemoryFiles.timed_empty _ _).timed
  (MemoryFiles.changes_insert hfirst _ _).timed

/-- The file that was replaced has the octets that replaced it. -/
theorem swapped_since_saved : ∃ file,
    (swapped.files.edited swap).file? ⟨"/b.json"⟩ = some file ∧
      ((swap.filterMap (·.written ⟨"/b.json"⟩)).getLast? = some file.bytes ∨
        swap.filterMap (·.written ⟨"/b.json"⟩) = [] ∧
          ∃ old, swapped.files.file? ⟨"/b.json"⟩ = some old ∧ old.bytes = file.bytes) := by
  obtain ⟨o, finished, saved, houtcome, -, hlisted, hsaved, -, hfresh⟩ := exists_output_swapped
  obtain ⟨a, ha⟩ := Option.isSome_iff_exists.mp hfresh
  have hlater : ∀ e ∈ [Edit.insert ⟨"/c.json"⟩ []], key e.path ≠ key swappedTarget := by
    decide +kernel
  have hne : key ⟨"/b.json"⟩ ≠ key swappedTarget := by decide +kernel
  obtain ⟨file, -, hfile, hbytes⟩ :=
    unchanged_since_saved timed_swapped houtcome hsaved hlater ha hlisted hne
  exact ⟨file, hfile, hbytes⟩

end Compiler

end ResourceTree
