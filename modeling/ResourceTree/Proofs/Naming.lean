import Mathlib.Data.List.TFAE
import Mathlib.Tactic.TFAE
import ResourceTree.Artifact
import ResourceTree.Proofs.Files.Path
import ResourceTree.Text.Hex

/-!
# Naming — where artifacts lie, and what their names tell

An artifact is called by the stem of its source, the hash of the source's path, a suffix for debug
compiles, and the extension. The stem is any text, but the hash behind it has a fixed width and no
digit ends the suffix, so a name is read from its end in one way only.

* `Text.readHex_hexDigits`: hexadecimal digits are read back;
* `Artifact.name`, **`Artifact.name_eq_iff`**: what two artifacts of one name have in common;
* **`Artifact.below_path`**: artifacts lie below their directory, under names of their own;
* **`Artifact.path_shared_iff`**: artifacts share a file exactly when mode, stem and hash agree.
-/

namespace ResourceTree

/-! ## Hexadecimal digits -/

namespace Text

variable {width n : Nat} {c : Char}

/-- The natural that lower-case hexadecimal digits stand for. -/
def readHex (digits : List Char) : Nat := digits.foldl (fun n c => 16 * n + Hex.value c) 0

theorem value_digitChar : ∀ n < 16, Hex.value (Nat.digitChar n) = n := by decide

theorem readHex_concat (digits : List Char) (c : Char) :
    readHex (digits ++ [c]) = 16 * readHex digits + Hex.value c := by
  rw [readHex, List.foldl_append]
  rfl

theorem readHex_toDigits (n : Nat) : readHex (Nat.toDigits 16 n) = n := by
  induction n using Nat.base_induction 16 (by decide) with
  | single n hn =>
    rw [Nat.toDigits_of_lt_base hn]
    exact (Nat.zero_add _).trans (value_digitChar n hn)
  | digit n k hk hn ih =>
    rw [← Nat.toDigits_append_toDigits (by decide) hn hk, Nat.toDigits_of_lt_base hk,
      readHex_concat, ih, value_digitChar k hk]

/-- **Hexadecimal digits are read back**, whatever they are padded to. -/
theorem readHex_hexDigits (width n : Nat) : readHex (hexDigits width n).toList = n := by
  have hzeros : ∀ count, (List.replicate count '0').foldl (fun n c => 16 * n + Hex.value c) 0 = 0 :=
    fun count => by
      induction count with
      | zero => rfl
      | succ count ih => exact ih
  rw [hexDigits, String.toList_ofList, readHex, List.foldl_append, hzeros]
  exact readHex_toDigits n

theorem length_hexDigits (hwidth : 0 < width) (h : n < 16 ^ width) :
    (hexDigits width n).toList.length = width := by
  have hle := (Nat.length_toDigits_le_iff (by decide) hwidth).mpr h
  rw [hexDigits, String.toList_ofList, List.length_append, List.length_replicate]
  omega

theorem exists_digitChar_of_mem_toDigits (h : c ∈ Nat.toDigits 16 n) :
    ∃ k < 16, c = Nat.digitChar k := by
  induction n using Nat.base_induction 16 (by decide) with
  | single n hn =>
    rw [Nat.toDigits_of_lt_base hn] at h
    exact ⟨n, hn, List.mem_singleton.mp h⟩
  | digit n k hk hn ih =>
    rw [← Nat.toDigits_append_toDigits (by decide) hn hk, Nat.toDigits_of_lt_base hk,
      List.mem_append] at h
    exact h.elim ih fun h => ⟨k, hk, List.mem_singleton.mp h⟩

theorem exists_digitChar_of_mem_hexDigits (h : c ∈ (hexDigits width n).toList) :
    ∃ k < 16, c = Nat.digitChar k := by
  rw [hexDigits, String.toList_ofList, List.mem_append] at h
  exact h.elim (fun h => ⟨0, by decide, List.eq_of_mem_replicate h⟩)
    exists_digitChar_of_mem_toDigits

theorem notMem_hexDigits (h : ∀ k < 16, Nat.digitChar k ≠ c) : c ∉ (hexDigits width n).toList :=
  fun hmem => by
    obtain ⟨k, hk, rfl⟩ := exists_digitChar_of_mem_hexDigits hmem
    exact h k hk rfl

end Text

/-! ## Stems -/

namespace Path

theorem slash_notMem_stemOf {name : String} (h : '/' ∉ name.toList) :
    '/' ∉ (stemOf name).toList := by
  unfold stemOf
  dsimp only
  split_ifs
  · exact h
  · rw [String.toList_ofList, List.mem_reverse]
    exact fun hm => h (List.mem_reverse.mp (List.dropWhile_subset _ (List.drop_subset _ _ hm)))

theorem slash_notMem_stem {p : Path} {stem : String} (h : p.stem? = some stem) :
    '/' ∉ stem.toList := by
  obtain ⟨name, hname, rfl⟩ := Option.map_eq_some_iff.mp h
  unfold fileName? at hname
  split at hname
  · next last hlast =>
    obtain rfl := Option.some.inj hname
    exact slash_notMem_stemOf (properName_of_mem_components (List.mem_of_getLast? hlast)).noSlash
  · cases hname

end Path

namespace Artifact

variable {stem stem' : String} {hash hash' : UInt64} {debug debug' : Bool}
  {dir source other : Path}

/-! ## Names -/

/-- The digits of a hash in a name. -/
def hashDigits (hash : UInt64) : String := Text.hexDigits 16 hash.toNat

/-- What an artifact is called. -/
def name (stem : String) (hash : UInt64) (debug : Bool) : String :=
  stem ++ "-" ++ hashDigits hash ++ (if debug then "-debug" else "") ++ "." ++ extension

/-- The stem in the name of a source's artifact; a source without a name has one as well. -/
def stemFor (source : Path) : String := (source.stem?).getD "resources"

/-- The hash in the name of a source's artifact. -/
def hashFor (source : Path) : UInt64 := stableHash (Bytes.ofString source.text)

theorem path_eq_join (dir source : Path) (debug : Bool) :
    path dir source debug = dir.join (name (stemFor source) (hashFor source) debug) := rfl

theorem length_hashDigits (hash : UInt64) : (hashDigits hash).toList.length = 16 :=
  Text.length_hexDigits (by decide) hash.toNat_lt

theorem hashDigits_inj : hashDigits hash = hashDigits hash' ↔ hash = hash' := by
  refine ⟨fun h => UInt64.toNat_inj.mp ?_, fun h => h ▸ rfl⟩
  have hread := congrArg (fun s : String => Text.readHex s.toList) h
  simpa only [hashDigits, Text.readHex_hexDigits] using hread

theorem exists_hashDigits_eq (hash : UInt64) : ∃ digits c,
    c ≠ 'g' ∧ (hashDigits hash).toList = digits ++ [c] := by
  rcases List.eq_nil_or_concat (hashDigits hash).toList with hnil | ⟨digits, c, heq⟩
  · have hlength := length_hashDigits hash
    rw [hnil] at hlength
    cases hlength
  · rw [List.concat_eq_append] at heq
    have hc : c ∈ (hashDigits hash).toList := by simp [heq]
    exact ⟨digits, c, fun hg => Text.notMem_hexDigits (by decide) (hg ▸ hc), heq⟩

/-- **A debug compile and a release compile have no name in common**: before the extension, one
ends with a letter that is no digit, the other with a digit. -/
theorem name_debug_ne (stem stem' : String) (hash hash' : UInt64) :
    name stem hash true ≠ name stem' hash' false := fun h => by
  have hcut : stem ++ "-" ++ hashDigits hash ++ "-debug" =
      stem' ++ "-" ++ hashDigits hash' ++ "" :=
    (String.append_left_inj ".").mp ((String.append_left_inj extension).mp h)
  obtain ⟨digits, c, hc, hdigits⟩ := exists_hashDigits_eq hash'
  have hlists : (stem ++ "-" ++ hashDigits hash ++ "-debu").toList ++ ['g'] =
      (stem' ++ "-").toList ++ digits ++ [c] := by
    simpa [hdigits] using congrArg String.toList hcut
  exact hc (List.singleton_inj.mp (List.append_inj' hlists rfl).2).symm

/-- **What two artifacts of one name have in common**, whatever their stems are. -/
theorem name_eq_iff : name stem hash debug = name stem' hash' debug' ↔
    debug = debug' ∧ stem = stem' ∧ hash = hash' := by
  refine ⟨fun h => ?_, by rintro ⟨rfl, rfl, rfl⟩; rfl⟩
  have hmode : debug = debug' := by
    cases debug <;> cases debug'
    · rfl
    · exact absurd h.symm (name_debug_ne _ _ _ _)
    · exact absurd h (name_debug_ne _ _ _ _)
    · rfl
  subst hmode
  -- the stem ends where the sixteen digits and the dash before them begin
  have hfront : stem ++ "-" ++ hashDigits hash = stem' ++ "-" ++ hashDigits hash' :=
    (String.append_left_inj _).mp
      ((String.append_left_inj ".").mp ((String.append_left_inj extension).mp h))
  have hlists : (stem ++ "-").toList ++ (hashDigits hash).toList =
      (stem' ++ "-").toList ++ (hashDigits hash').toList := by
    rw [← String.toList_append, hfront, String.toList_append]
  obtain ⟨hstem, hdigits⟩ := List.append_inj' hlists
    ((length_hashDigits hash).trans (length_hashDigits hash').symm)
  exact ⟨rfl, (String.append_left_inj "-").mp (String.toList_inj.mp hstem),
    hashDigits_inj.mp (String.toList_inj.mp hdigits)⟩

/-! ## Places -/

theorem properName_name (source : Path) (debug : Bool) :
    Path.ProperName (name (stemFor source) (hashFor source) debug) := by
  have hstem : '/' ∉ (stemFor source).toList := by
    unfold stemFor
    cases h : source.stem? with
    | none => decide
    | some stem => exact Path.slash_notMem_stem h
  have hhash : '/' ∉ (hashDigits (hashFor source)).toList := Text.notMem_hexDigits (by decide)
  refine ⟨?_, Path.componentOf_of_length (by simp [name, extension]; omega)⟩
  simp only [name, String.toList_append, List.mem_append, not_or]
  refine ⟨⟨⟨⟨⟨hstem, by decide⟩, hhash⟩, ?_⟩, by decide⟩, by decide⟩
  cases debug <;> decide

/-- **Artifacts lie below their directory.** -/
theorem below_path (dir source : Path) (debug : Bool) : (path dir source debug).Below dir := by
  rw [path_eq_join]
  exact Path.below_join (properName_name source debug)

theorem normalNames_path (dir source : Path) (debug : Bool) :
    (path dir source debug).normalNames =
      dir.normalNames ++ [name (stemFor source) (hashFor source) debug] := by
  rw [path_eq_join, Path.normalNames_join (properName_name source debug)]

theorem name_eq_of_normalize
    (h : (path dir source debug).normalize = (path dir other debug').normalize) :
    name (stemFor source) (hashFor source) debug = name (stemFor other) (hashFor other) debug' := by
  have hnames := congrArg Path.normalNames h
  rw [Path.normalNames_normalize, Path.normalNames_normalize, normalNames_path, normalNames_path,
    List.append_cancel_left_eq] at hnames
  exact List.singleton_inj.mp hnames

theorem path_eq_of_normalize
    (h : (path dir source debug).normalize = (path dir other debug').normalize) :
    path dir source debug = path dir other debug' := by
  rw [path_eq_join, path_eq_join, name_eq_of_normalize h]

/-- **Artifacts share a file exactly when mode, stem and hash agree**: whether files are told apart
by the text of their paths, by its components or by the normal form, and so a debug compile and a
release compile never share one. -/
theorem path_shared_iff (dir source other : Path) (debug debug' : Bool) :
    [path dir source debug = path dir other debug',
      (path dir source debug).components = (path dir other debug').components,
      (path dir source debug).normalize = (path dir other debug').normalize,
      debug = debug' ∧ stemFor source = stemFor other ∧
        stableHash (Bytes.ofString source.text) = stableHash (Bytes.ofString other.text)].TFAE ∧
    (path dir source true).normalize ≠ (path dir other false).normalize := by
  refine ⟨?_, fun h => name_debug_ne _ _ _ _ (name_eq_of_normalize h)⟩
  tfae_have 1 → 2 := fun h => congrArg Path.components h
  tfae_have 2 → 3 := Path.normalize_congr
  tfae_have 3 → 4 := fun h => name_eq_iff.mp (name_eq_of_normalize h)
  tfae_have 4 → 1 := fun h => congrArg dir.join (name_eq_iff.mpr h)
  tfae_finish

end Artifact

end ResourceTree
