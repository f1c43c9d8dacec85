import ResourceTree.Codec.Packed
import ResourceTree.Proofs.Codec.RoundTrip

/-!
# Packed dictionaries are opened again

What is written has no limit of depth, but what is read has one. A dictionary that is packed is
opened as an equal one as far as it is not too deep.

* `Lz4.Undoes`: expanding undoes compressing;
* `Dict.decodeCompressed_eq_ok`, `Packed.wellFormed_of_unpack`: what is opened;
* `Dict.ReadsBack`, `Dict.readsBack_decode`: a dictionary is read back as far as it is not too deep;
* `Packed.unpack_compress`: what is packed is opened as its octets are read;
* **`Packed.readsBack_of_ofDict`**: what was packed is read back.
-/

namespace ResourceTree

open Codec (TooDeep depthLimit)

/-- Expanding undoes compressing. -/
def Lz4.Undoes (data : Bytes) : Prop := decompress (compress data) = .ok data

section

variable {d : Dict Value} {bytes : Bytes}

/-! ## What is opened -/

theorem Dict.decodeCompressed_eq_ok (h : decodeCompressed bytes = .ok d) :
    ∃ expanded, Lz4.decompress bytes = .ok expanded ∧ Dict.decode expanded = .ok d := by
  unfold decodeCompressed at h
  split at h
  · cases h
  · next expanded hexpanded =>
    split at h
    · cases h
    · next hd => exact ⟨expanded, hexpanded, (Except.ok.inj h) ▸ hd⟩

theorem Dict.wellFormed_of_decode (h : Dict.decode bytes = .ok d) : (Value.dict d).WellFormed := by
  obtain ⟨members, -, -, -, rfl⟩ := Dict.decode_eq_ok_iff.mp h
  exact Codec.wellFormed_value (.dict members)

theorem Packed.wellFormed_of_unpack {payload : Packed} (h : payload.unpack = .ok d) :
    (Value.dict d).WellFormed := by
  obtain ⟨expanded, -, hdecode⟩ := Dict.decodeCompressed_eq_ok h
  exact Dict.wellFormed_of_decode hdecode

/-! ## What is read back -/

/-- **A dictionary is read back** as an equal one if it is not too deep, and is refused for its
depth otherwise. -/
structure Dict.ReadsBack (d : Dict Value) (read : Except UnpackFault (Dict Value)) : Prop where
  shallow : d.depth ≤ depthLimit → ∃ d', read = .ok d' ∧ (d' == d) = true
  deep : depthLimit < d.depth → ∃ fault, TooDeep fault ∧ read = .error (.dictionary fault)

theorem Dict.readsBack_decode (hwf : (Value.dict d).WellFormed) (h : d.encode = .ok bytes) :
    d.ReadsBack ((Dict.decode bytes).mapError UnpackFault.dictionary) := by
  obtain ⟨hshallow, hdeep⟩ := Dict.decode_of_encode hwf h
  have hl : (Value.dict d).Lifeless := ((Dict.encode_eq_ok_iff hwf).mp h).1.1
  constructor
  · intro hle
    refine ⟨_, ?_, Codec.eqUsing_dictValue_spelling Packed.beq_refl hwf hl⟩
    rw [hshallow hle]
    rfl
  · intro hlt
    obtain ⟨fault, htoo, hfault⟩ := hdeep hlt
    refine ⟨fault, htoo, ?_⟩
    rw [hfault]
    rfl

theorem Dict.decodeCompressed_compress (h : Lz4.Undoes bytes) :
    Dict.decodeCompressed (Lz4.compress bytes) =
      (Dict.decode bytes).mapError UnpackFault.dictionary := by
  have hexpand : Lz4.decompress (Lz4.compress bytes) = .ok bytes := h
  unfold Dict.decodeCompressed
  rw [hexpand]
  dsimp only
  cases Dict.decode bytes <;> rfl

theorem Packed.unpack_compress (h : Lz4.Undoes bytes) (hd : Dict.decode bytes = .ok d) :
    Packed.unpack ⟨Lz4.compress bytes⟩ = .ok d := by
  rw [unpack, Dict.decodeCompressed_compress h, hd]
  rfl

theorem Packed.ofDict_of_encode (h : d.encode = .ok bytes) :
    Packed.ofDict d = .ok ⟨Lz4.compress bytes⟩ := by
  rw [ofDict, h]
  rfl

theorem Packed.encode_of_ofDict {payload : Packed} (h : Packed.ofDict d = .ok payload) :
    ∃ bytes, d.encode = .ok bytes ∧ payload = ⟨Lz4.compress bytes⟩ := by
  unfold Packed.ofDict at h
  cases hencode : d.encode with
  | error fault => rw [hencode] at h; cases h
  | ok bytes => rw [hencode] at h; exact ⟨bytes, rfl, (Except.ok.inj h).symm⟩

/-- **A dictionary that was packed is read back.** -/
theorem Packed.readsBack_of_ofDict {payload : Packed} (hwf : (Value.dict d).WellFormed)
    (h : Packed.ofDict d = .ok payload) (hlz4 : ∀ bytes, d.encode = .ok bytes → Lz4.Undoes bytes) :
    d.ReadsBack payload.unpack := by
  obtain ⟨bytes, hencode, rfl⟩ := Packed.encode_of_ofDict h
  rw [Packed.unpack, Dict.decodeCompressed_compress (hlz4 bytes hencode)]
  exact Dict.readsBack_decode hwf hencode

end

end ResourceTree
