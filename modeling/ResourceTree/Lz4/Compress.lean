import Std.Data.HashMap
import ResourceTree.Lz4.Block

/-!
# Compression — writing blocks

A block is searched for greedily: at each octet the latest place with the same four octets is
looked up, and a match is taken as far as it goes. The last five octets are always literals, and no
match starts in the last twelve. A searched block is expanded again before it is handed out; should
it not give the input back, the input is stored as literals.

* `Sequence`, `Sequence.bytes`, `literalBlock`;
* `search`: the greedy search;
* **`compress`**, **`decompress_compress`**, `length_compress_le`.
-/

namespace ResourceTree.Lz4

/-! ## Sequences as octets -/

/-- Literals, then a match of at least four octets at a distance of `offset`. -/
structure Sequence where
  literals : Bytes
  offset : Nat
  length : Nat

/-- The octets that continue a count of at least fifteen. -/
def extension (count : Nat) : Bytes :=
  if count < 15 then []
  else List.replicate ((count - 15) / 255) 255 ++ [UInt8.ofNat ((count - 15) % 255)]

/-- The token of a sequence with the given two counts. -/
def token (literals extra : Nat) : UInt8 := UInt8.ofNat (16 * min literals 15 + min extra 15)

def Sequence.bytes (s : Sequence) : Bytes :=
  token s.literals.length (s.length - 4) :: (extension s.literals.length ++ s.literals ++
    Bytes.ofNat 2 s.offset ++ extension (s.length - 4))

/-- The last sequence of a block: literals without a match. -/
def literalBlock (literals : Bytes) : Bytes :=
  token literals.length 0 :: (extension literals.length ++ literals)

/-! ## The search -/

/-- How far the octets from `i` on agree with those from `j` on, at most `room`. -/
def agreement (data : Array UInt8) (j i : Nat) : Nat → Nat
  | 0 => 0
  | room + 1 => if data[j]? = data[i]? then agreement data (j + 1) (i + 1) room + 1 else 0

/-- The search at octet `i`; the octets from `anchor` on are still to be written. -/
def searchFrom (data : Array UInt8) :
    Nat → (anchor i : Nat) → Std.HashMap Bytes Nat → Bytes
  | 0, anchor, _, _ => literalBlock (data.toList.drop anchor)
  | steps + 1, anchor, i, seen =>
    if data.size < i + 12 then literalBlock (data.toList.drop anchor)
    else
      let key := (data.extract i (i + 4)).toList
      let later := seen.insert key i
      match seen[key]? with
      | some j =>
        if i - j ≤ 65535 then
          let length := agreement data j i (data.size - 5 - i)
          let s : Sequence := ⟨(data.extract anchor i).toList, i - j, length⟩
          s.bytes ++ searchFrom data steps (i + length) (i + length) later
        else searchFrom data steps anchor (i + 1) later
      | none => searchFrom data steps anchor (i + 1) later

/-- A block for the octets. -/
def search (data : Bytes) : Bytes := searchFrom data.toArray data.length 0 0 ∅

/-- **Compresses octets to a frame.** -/
def compress (data : Bytes) : Bytes :=
  let size := Bytes.ofNat 4 data.length
  let searched := size ++ search data
  match decompress searched with
  | .ok again => if again = data then searched else size ++ literalBlock data
  | .error _ => size ++ literalBlock data

/-! ## What is compressed comes back -/

theorem readExtension_replicate (n last : Nat) (h : last < 255) (count : Nat) (rest : Bytes) :
    readExtension count (List.replicate n 255 ++ UInt8.ofNat last :: rest)
      = .ok (count + 255 * n + last, rest) := by
  induction n generalizing count with
  | zero =>
    have hne : UInt8.ofNat last ≠ 255 := fun e => by
      have := congrArg UInt8.toNat e
      simp at this
      omega
    simp [readExtension, hne, Nat.mod_eq_of_lt (show last < 256 by omega)]
  | succ n ih =>
    rw [List.replicate_succ, List.cons_append, readExtension, if_pos rfl, ih]
    congr 2
    omega

theorem readCount_extension (count : Nat) (rest : Bytes) :
    readCount (min count 15) (extension count ++ rest) = .ok (count, rest) := by
  unfold readCount extension
  by_cases h : count < 15
  · rw [if_neg (by omega), if_pos h, Nat.min_eq_left (by omega)]
    rfl
  · rw [if_pos (by omega), if_neg h, List.append_assoc, List.singleton_append,
      readExtension_replicate _ _ (by omega)]
    congr 2
    omega

theorem expandBlock_literalBlock (data : Bytes) (room : Nat) (h : data.length ≤ room) :
    expandBlock room (literalBlock data) = .ok data := by
  have htoken : (token data.length 0).toNat / 16 = min data.length 15 := by
    simp [token]
    omega
  have hlit : takeLiterals room data.length data #[] = .ok ([], data.toArray) := by
    unfold takeLiterals
    split
    · next h0 => simp [List.length_eq_zero_iff.mp h0]
    · rw [show data.split? data.length = some (data, []) from Bytes.split?_eq_some_iff.mpr (by simp)]
      simp [Nat.not_lt.mpr h]
  have hlen : (literalBlock data).length = (extension data.length ++ data).length + 1 := rfl
  have hcount := readCount_extension data.length data
  unfold expandBlock
  rw [hlen, literalBlock, expandSequences, htoken, hcount]
  simp only [bind, Except.bind, hlit]
  simp [Functor.map, Except.map]

/-- **What is compressed comes back**, as long as its length fits the size word. -/
theorem decompress_compress (data : Bytes) (h : data.length < Nat.pow 2 32) :
    decompress (compress data) = .ok data := by
  have hstored : decompress (Bytes.ofNat 4 data.length ++ literalBlock data) = .ok data := by
    unfold decompress
    rw [show (Bytes.ofNat 4 data.length ++ literalBlock data).split? 4
      = some (Bytes.ofNat 4 data.length, literalBlock data) from
        Bytes.split?_eq_some_iff.mpr (by simp)]
    simp only
    have hsize : Bytes.toNat (Bytes.ofNat 4 data.length) = data.length := by
      rw [Bytes.toNat_ofNat, Nat.mod_eq_of_lt (by omega)]
    exact expandBlock_literalBlock _ _ (Nat.le_of_eq hsize.symm)
  unfold compress
  simp only
  split
  · next again hagain =>
    split
    · next heq => rw [hagain, heq]
    · exact hstored
  · exact hstored

/-! ## How long a frame is -/

theorem length_extension_le (count : Nat) : (extension count).length ≤ count + 1 := by
  unfold extension
  split
  · exact Nat.zero_le _
  · rw [List.length_append, List.length_replicate, List.length_singleton]
    omega

theorem length_literalBlock_le (literals : Bytes) :
    (literalBlock literals).length ≤ 2 * literals.length + 2 := by
  have hextension := length_extension_le literals.length
  rw [literalBlock, List.length_cons, List.length_append]
  omega

theorem Sequence.length_bytes_le (s : Sequence) :
    s.bytes.length ≤ 2 * s.literals.length + s.length + 5 := by
  have hliterals := length_extension_le s.literals.length
  have hlength := length_extension_le (s.length - 4)
  simp only [Sequence.bytes, List.length_cons, List.length_append, Bytes.length_ofNat]
  omega

theorem agreement_le (data : Array UInt8) (j i room : Nat) : agreement data j i room ≤ room := by
  induction room generalizing j i with
  | zero => exact Nat.le_refl 0
  | succ room ih =>
    unfold agreement
    split
    · exact Nat.succ_le_succ (ih (j + 1) (i + 1))
    · exact Nat.zero_le _

theorem length_rest_le (data : Array UInt8) (anchor : Nat) :
    (literalBlock (data.toList.drop anchor)).length ≤ 2 * (data.size - anchor) + 2 := by
  have hblock := length_literalBlock_le (data.toList.drop anchor)
  rwa [List.length_drop, Array.length_toList] at hblock

theorem length_searchFrom_le (data : Array UInt8) (steps : Nat) {anchor i : Nat}
    (seen : Std.HashMap Bytes Nat) (hi : anchor ≤ i) :
    (searchFrom data steps anchor i seen).length ≤ 2 * (data.size - anchor) + 5 * steps + 2 := by
  induction steps generalizing anchor i seen with
  | zero => exact length_rest_le data anchor
  | succ steps ih =>
    have hpast : anchor ≤ i + 1 := Nat.le_succ_of_le hi
    have hskip := ih (seen.insert (data.extract i (i + 4)).toList i) hpast
    unfold searchFrom
    dsimp only
    split
    · have hrest := length_rest_le data anchor
      omega
    · split
      · next hroom _ j _ =>
        split
        · have hlength := agreement_le data j i (data.size - 5 - i)
          have hsequence := Sequence.length_bytes_le ⟨(data.extract anchor i).toList, i - j,
            agreement data j i (data.size - 5 - i)⟩
          have hnext := ih (seen.insert (data.extract i (i + 4)).toList i)
            (Nat.le_refl (i + agreement data j i (data.size - 5 - i)))
          have hliterals : (data.extract anchor i).toList.length ≤ i - anchor := by
            rw [Array.length_toList, Array.size_extract]
            omega
          rw [List.length_append]
          dsimp only at hsequence
          omega
        · omega
      · omega

/-- **A frame is not much longer than what is in it.** -/
theorem length_compress_le (data : Bytes) : (compress data).length ≤ 7 * data.length + 6 := by
  have hsearch := length_searchFrom_le data.toArray data.length ∅ (Nat.le_refl 0)
  have hstored := length_literalBlock_le data
  rw [List.size_toArray] at hsearch
  unfold compress
  dsimp only
  split
  · split
    · rw [List.length_append, Bytes.length_ofNat, search]
      omega
    · rw [List.length_append, Bytes.length_ofNat]
      omega
  · rw [List.length_append, Bytes.length_ofNat]
    omega

end ResourceTree.Lz4
