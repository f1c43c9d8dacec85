import ResourceTree.Proofs.Files.Memory

/-!
# Files by normal path — all spellings of one file

`..` takes away the last name before it, and does nothing where none is left. What a path comes to
depends on the names before it only, so it may be followed from the normal form of a directory as
well as from the directory. Files are kept under normal paths, so all spellings of one normal path
show the same file, whatever was done to the files before.

* `Path.moves`, `normalNames_eq`, `moves_join`, **`Path.normalize_join`**: following a path;
* `MemoryFiles.Call`, `call`, `after`: histories of files in memory;
* `SameAnswer`: answers that agree but for the path that an error shows; `sameAnswer_find`;
* `stamp?`, `stamps`, **`pairwise_stamps`**: the times that writes and touches give;
* **`known_by_normal_path`**.
-/

namespace ResourceTree

/-! ## Following a path -/

namespace Path

variable {dir : Path} {text : String}

/-- What the parts of a path do to the names before them, one after the other. -/
def moves (p : Path) : List Component := (Text.splitAt '/' p.text.toList).filterMap componentOf

theorem normalNames_eq (p : Path) : p.normalNames = p.moves.foldl pushComponent [] := by
  obtain ⟨first, rest, hsplit, hp⟩ := exists_components_eq p
  have habs := isAbsolute_eq hsplit
  rw [normalNames, hp, moves, hsplit]
  unfold leading
  split_ifs with hroot hdot
  · rw [hroot, eq_comm, Bool.and_eq_true, List.isEmpty_iff] at habs
    rw [habs.1]
    rfl
  · rw [hdot]
    rfl
  · cases hfirst : componentOf first with
    | none => rw [List.filterMap_cons_none hfirst]; rfl
    | some c => rw [List.filterMap_cons_some hfirst]; rfl

theorem moves_slash (front back : List Char) :
    (Text.splitAt '/' (front ++ '/' :: back)).filterMap componentOf =
      (Text.splitAt '/' front).filterMap componentOf ++
        (Text.splitAt '/' back).filterMap componentOf := by
  rw [Text.splitAt_append_cons, List.filterMap_append]

theorem moves_join (h : (Path.mk text).isAbsolute = false) :
    (dir.join text).moves = dir.moves ++ moves ⟨text⟩ := by
  unfold join
  rw [if_neg (by rw [h]; exact Bool.noConfusion)]
  split_ifs with hend
  · rw [Bool.or_eq_true, decide_eq_true_eq] at hend
    rcases hend with hempty | hslash
    · obtain rfl : dir = ⟨""⟩ := congrArg Path.mk (String.isEmpty_iff.mp hempty)
      rw [String.empty_append]
      rfl
    · -- the slash at the end is the one between the two
      obtain ⟨front, hfront⟩ := List.getLast?_eq_some_iff.mp hslash
      have hdir : dir.moves = (Text.splitAt '/' front).filterMap componentOf := by
        rw [moves, hfront, moves_slash]
        exact List.append_nil _
      rw [hdir, moves, String.toList_append, hfront, List.append_assoc]
      exact moves_slash front text.toList
  · rw [moves, String.toList_append, String.toList_append, List.append_assoc]
    exact moves_slash dir.text.toList text.toList

theorem isAbsolute_join_relative (h : (Path.mk text).isAbsolute = false) :
    (dir.join text).isAbsolute = dir.isAbsolute := by
  have hhead : ∀ more : String, dir.text ≠ "" →
      (Path.mk (dir.text ++ more)).isAbsolute = dir.isAbsolute := by
    intro more hne
    have hnil : dir.text.toList ≠ [] := fun h => hne (String.toList_inj.mp h)
    obtain ⟨c, cs, hcs⟩ := List.exists_cons_of_ne_nil hnil
    unfold isAbsolute
    rw [String.toList_append, hcs]
    rfl
  unfold join
  rw [if_neg (by rw [h]; exact Bool.noConfusion)]
  by_cases hempty : dir.text = ""
  · obtain rfl : dir = ⟨""⟩ := congrArg Path.mk hempty
    exact h
  · split_ifs
    · exact hhead text hempty
    · rw [String.append_assoc]
      exact hhead _ hempty

/-- **A path may be followed from the normal form of a directory.** -/
theorem normalize_join (dir : Path) (text : String) :
    (dir.join text).normalize = (dir.normalize.join text).normalize := by
  cases h : (Path.mk text).isAbsolute with
  | true => rw [join, join, if_pos h, if_pos h]
  | false =>
    have hnames : ∀ d : Path, (d.join text).normalNames =
        (moves ⟨text⟩).foldl pushComponent d.normalNames := by
      intro d
      rw [normalNames_eq, moves_join h, List.foldl_append, ← normalNames_eq]
    rw [normalize, normalize, hnames, hnames, isAbsolute_join_relative h,
      isAbsolute_join_relative h, normalNames_normalize, isAbsolute_normalize]

end Path

namespace MemoryFiles

variable {fs : MemoryFiles} {p q : Path} {time : Nat}

/-! ## Histories -/

/-- A call that changes files in memory. -/
inductive Call where
  | insert (p : Path) (bytes : Bytes)
  | touch (p : Path)
  | remove (p : Path)
  | write (p : Path) (bytes : Bytes)

/-- The files after a call. -/
def call (fs : MemoryFiles) : Call → MemoryFiles
  | .insert p bytes => fs.insert p bytes
  | .touch p => (fs.touch p).2
  | .remove p => (fs.remove p).2
  | .write p bytes => (FileSystem.write fs p bytes).2

/-- The files after some calls, from none on. -/
def after (calls : List Call) : MemoryFiles := calls.foldl call empty

/-! ## Answers -/

/-- Answers that are the same, up to the path that an error shows. -/
inductive SameAnswer {α : Type} : Except ResourceError α → Except ResourceError α → Prop where
  | found (a : α) : SameAnswer (.ok a) (.ok a)
  | missing (shown shown' : String) :
      SameAnswer (.error (.notFound shown)) (.error (.notFound shown'))

theorem sameAnswer_find {α : Type} (f : MemoryFile → α) (h : key p = key q) :
    SameAnswer (f <$> fs.find p) (f <$> fs.find q) := by
  unfold find
  rw [file?_congr h]
  cases fs.file? q with
  | none => exact .missing p.text q.text
  | some file => exact .found (f file)

/-! ## Times -/

/-- The path of the file that a call makes newer. -/
def Call.renewed? : Call → Option Path
  | insert p _ | touch p | write p _ => some p
  | remove _ => none

/-- The time that a call gives to a file, as it is answered right after the call. -/
def stamp? (fs : MemoryFiles) (c : Call) : Option Nat :=
  c.renewed?.bind fun p => (FileSystem.modified (fs.call c) p).toOption

/-- The times that calls give, one after the other. -/
def stamps (fs : MemoryFiles) : List Call → List Nat
  | [] => []
  | c :: calls => (fs.stamp? c).toList ++ (fs.call c).stamps calls

theorem file?_insert_self (fs : MemoryFiles) (p : Path) (bytes : Bytes) :
    (fs.insert p bytes).file? p = some ⟨bytes, fs.clock + 1⟩ := Dict.get?_insert_self

theorem stamp?_insert (fs : MemoryFiles) (p : Path) (bytes : Bytes) :
    fs.stamp? (.insert p bytes) = some (fs.clock + 1) := by
  show (FileSystem.modified (fs.insert p bytes) p).toOption = _
  rw [modified_of_file? (file?_insert_self fs p bytes)]
  rfl

theorem stamp?_touch (fs : MemoryFiles) (p : Path) :
    fs.stamp? (.touch p) =
      if FileSystem.present fs p = true then some (fs.clock + 1) else none := by
  show (FileSystem.modified (fs.touch p).2 p).toOption =
    if (fs.file? p).isSome = true then some (fs.clock + 1) else none
  unfold touch
  cases hfile : fs.file? p with
  | none =>
    have hnone : (MemoryFiles.mk fs.files (fs.clock + 1)).file? p = none := hfile
    dsimp only
    rw [modified_of_file?_none hnone]
    rfl
  | some file =>
    show (FileSystem.modified (fs.insert p file.bytes) p).toOption = _
    rw [modified_of_file? (file?_insert_self fs p file.bytes)]
    rfl

/-- A call that gives a time moves the clock on, and gives the time that it then shows. -/
theorem clock_of_stamp? {c : Call} (h : fs.stamp? c = some time) :
    fs.clock < time ∧ (fs.call c).clock = time := by
  cases c with
  | insert p bytes | write p bytes =>
    obtain rfl := Option.some.inj ((stamp?_insert fs p bytes).symm.trans h)
    exact ⟨Nat.lt_succ_self _, rfl⟩
  | touch p =>
    rw [stamp?_touch] at h
    split_ifs at h
    obtain rfl := Option.some.inj h
    refine ⟨Nat.lt_succ_self _, ?_⟩
    show (fs.touch p).2.clock = _
    unfold touch
    split <;> rfl
  | remove p => cases h

theorem clock_le_call (fs : MemoryFiles) (c : Call) : fs.clock ≤ (fs.call c).clock := by
  cases c with
  | insert p bytes | write p bytes => exact Nat.le_succ _
  | touch p =>
    show _ ≤ (fs.touch p).2.clock
    unfold touch
    split <;> exact Nat.le_succ _
  | remove p => exact Nat.le_refl _

theorem clock_lt_of_mem_stamps {calls : List Call} (h : time ∈ fs.stamps calls) :
    fs.clock < time := by
  induction calls generalizing fs with
  | nil => cases h
  | cons c calls ih =>
    rcases List.mem_append.mp h with h | h
    · exact (clock_of_stamp? (Option.mem_toList.mp h)).1
    · exact (clock_le_call fs c).trans_lt (ih h)

/-- **Every time is later than all times given before it.** -/
theorem pairwise_stamps (fs : MemoryFiles) (calls : List Call) :
    (fs.stamps calls).Pairwise (· < ·) := by
  induction calls generalizing fs with
  | nil => exact List.Pairwise.nil
  | cons c calls ih =>
    refine List.pairwise_append.mpr ⟨?_, ih (fs.call c), fun time htime later hlater => ?_⟩
    · cases fs.stamp? c with
      | none => exact List.Pairwise.nil
      | some time => exact List.pairwise_singleton _ _
    · have hclock := (clock_of_stamp? (Option.mem_toList.mp htime)).2
      exact hclock ▸ clock_lt_of_mem_stamps hlater

/-! ## Identity -/

/-- **Files in memory are known by their normal paths.** Taking the normal form twice is taking it
once, and a path may be followed from the normal form of a directory. After whatever calls,

* paths of one normal form get the same answers, up to the path that an error shows;
* exactly the paths of files that are there have a full path, which is its own full path;
* the times that writes and touches gave are in ascending order: every write gives one, and every
  touch of a file that is there. -/
theorem known_by_normal_path :
    (∀ p : Path, p.normalize.normalize = p.normalize) ∧
    (∀ (dir : Path) (text : String),
      (dir.join text).normalize = (dir.normalize.join text).normalize) ∧
    ∀ calls : List Call, let fs := after calls
      (∀ p q : Path, p.normalize = q.normalize →
        SameAnswer (FileSystem.read fs p) (FileSystem.read fs q) ∧
        FileSystem.present fs p = FileSystem.present fs q ∧
        SameAnswer (FileSystem.modified fs p) (FileSystem.modified fs q) ∧
        SameAnswer (FileSystem.canonicalize fs p) (FileSystem.canonicalize fs q)) ∧
      (∀ p : Path, (∃ x, FileSystem.canonicalize fs p = .ok x) ↔
        FileSystem.present fs p = true) ∧
      (∀ p x : Path, FileSystem.canonicalize fs p = .ok x →
        FileSystem.canonicalize fs x = .ok x) ∧
      (empty.stamps calls).Pairwise (· < ·) ∧
      (∀ p bytes, (fs.stamp? (.insert p bytes)).isSome = true ∧
        (fs.stamp? (.write p bytes)).isSome = true) ∧
      ∀ p : Path, (fs.stamp? (.touch p)).isSome = FileSystem.present fs p := by
  refine ⟨Path.normalize_normalize, Path.normalize_join, fun calls => ?_⟩
  intro fs
  refine ⟨fun p q h => ?_, fun p => ?_, fun p x => canonicalize_again, pairwise_stamps empty calls,
    fun p bytes => ?_, fun p => ?_⟩
  · have hkey : key p = key q := key_eq_iff.mpr h
    refine ⟨sameAnswer_find _ hkey, congrArg Option.isSome (file?_congr hkey),
      sameAnswer_find _ hkey, ?_⟩
    show SameAnswer ((fun _ => p.normalize) <$> fs.find p.normalize)
      ((fun _ => q.normalize) <$> fs.find q.normalize)
    rw [h]
    exact sameAnswer_find _ rfl
  · refine ⟨fun ⟨x, hx⟩ => (canonicalize_eq_ok_iff.mp hx).2, fun hp => ?_⟩
    exact ⟨p.normalize, canonicalize_eq_ok_iff.mpr ⟨rfl, hp⟩⟩
  · have hstamp : (fs.stamp? (.insert p bytes)).isSome = true := by rw [stamp?_insert]; rfl
    exact ⟨hstamp, hstamp⟩
  · rw [stamp?_touch]
    cases FileSystem.present fs p <;> rfl

end MemoryFiles

end ResourceTree
