import ResourceTree.Proofs.Codec.Faithful
import ResourceTree.Value.Convert

/-!
# Conversions between the forms of a dictionary

A dictionary, its encoded octets and its packed form convert into each other. Which way is taken
does not matter: what comes back is equal, and the octets are the same.

* **`Value.kind_of_convertPlain`**, `Handles.kind_of_convert`: a conversion gives the kind that was
  asked for;
* `Dict.encode_of_decode`: what was read can be written again;
* `Handles.convert_dict_binary`, `convert_binary_dict` and the like: each of the conversions;
* `Handles.convertVia`, **`Handles.convert_commutes`**.
-/

namespace ResourceTree

open Codec (depthLimit dictValue)

variable {d : Dict Value} {bytes : Bytes}

/-! ## Kinds -/

theorem Value.kind_of_convertPlain {v w : Value} {target : Kind}
    (h : v.convertPlain target = some w) : w.kind = target := by
  unfold convertPlain at h
  split_ifs at h with hkind
  · exact Option.some.inj h ▸ hkind
  · split at h
    all_goals
      simp only [Option.map_eq_some_iff, Option.bind_eq_some_iff, Option.some.injEq, reduceCtorEq]
        at h
    -- at once, from text or octets that were read, and from a dictionary that was written
    case h_1 | h_2 | h_3 | h_4 => exact h ▸ rfl
    case h_5 | h_6 | h_9 | h_10 =>
      obtain ⟨_, -, rfl⟩ := h
      rfl
    case h_7 | h_8 | h_11 | h_12 =>
      obtain ⟨_, -, _, -, rfl⟩ := h
      rfl

/-- **A conversion gives the kind that was asked for**, also through a handle. -/
theorem Handles.kind_of_convert {hs : Handles} {v w : Value} {target : Kind}
    (h : hs.convert v target = some w) : w.kind = target := by
  unfold convert at h
  split_ifs at h with hkind
  · exact Option.some.inj h ▸ hkind
  · obtain ⟨plain, -, hplain⟩ := Option.bind_eq_some_iff.mp h
    exact Value.kind_of_convertPlain hplain

/-! ## From octets to octets -/

/-- **What was read can be written again**, and is not too deep to be read once more. -/
theorem Dict.encode_of_decode (h : Dict.decode bytes = .ok d) :
    (Value.dict d).WellFormed ∧ d.depth ≤ depthLimit ∧ ∃ again, d.encode = .ok again := by
  have hwf := wellFormed_of_decode h
  obtain ⟨members, hfits, hdepth, -, rfl⟩ := decode_eq_ok_iff.mp h
  have hnormal := Codec.spelling_value_normalizes hfits
  rw [Codec.Spelling.value, Value.spelling_dict] at hnormal
  refine ⟨hwf, ?_, _, encode_dictValue hnormal.fits⟩
  have hspelled : Codec.membersDepth (dictValue members).spelling = (dictValue members).depth :=
    Codec.membersDepth_spelling hwf.root fun entry hentry =>
      Codec.depth_spelling (hwf.member hentry)
  rw [← hspelled]
  exact (Nat.succ_le_succ_iff.mp hnormal.shallow).trans hdepth

/-! ## There and back -/

namespace Handles

variable {hs : Handles} {payload : Packed} {v : Value}

theorem convert_dict_binary (h : d.encode = .ok bytes) :
    hs.convert (.dict d) .binary = some (.binary bytes) := by
  show (d.encode.toOption).map Value.binary = _
  rw [h]
  rfl

theorem convert_dict_compressed (h : d.encode = .ok bytes) :
    hs.convert (.dict d) .compressed = some (.packed ⟨Lz4.compress bytes⟩) := by
  show ((Packed.ofDict d).toOption).map Value.packed = _
  rw [Packed.ofDict_of_encode h]
  rfl

theorem convert_binary_dict :
    hs.convert (.binary bytes) .dict = some v ↔ ∃ d, Dict.decode bytes = .ok d ∧ v = .dict d := by
  show ((Dict.decode bytes).toOption).map Value.dict = some v ↔ _
  cases Dict.decode bytes with
  | error fault => simp [Except.toOption]
  | ok d => simp [Except.toOption, eq_comm]

theorem convert_binary_compressed :
    hs.convert (.binary bytes) .compressed = (hs.convert (.binary bytes) .dict).bind fun v =>
      hs.convert v .compressed := by
  show ((Dict.decode bytes).toOption.bind fun d => ((Packed.ofDict d).toOption).map Value.packed) =
    (((Dict.decode bytes).toOption).map Value.dict).bind fun v => hs.convert v .compressed
  rw [Option.bind_map]
  rfl

theorem convert_packed_dict (h : payload.unpack = .ok d) :
    hs.convert (.packed payload) .dict = some (.dict d) := by
  show (payload.unpack.toOption).map Value.dict = _
  rw [h]
  rfl

theorem convert_packed_binary (h : payload.unpack = .ok d) :
    hs.convert (.packed payload) .binary = hs.convert (.dict d) .binary := by
  show (payload.unpack.toOption.bind fun d => (d.encode.toOption).map Value.binary) = _
  rw [h]
  rfl

/-- A conversion in two steps. -/
def convertVia (hs : Handles) (v : Value) (through target : Kind) : Option Value :=
  (hs.convert v through).bind fun w => hs.convert w target

/-- A dictionary that can be written and is not too deep gives the same by every way. -/
theorem convertVia_of_encode (hs : Handles) (hd : (Value.dict d).WellFormed)
    (hdepth : d.depth ≤ depthLimit) (h : d.encode = .ok bytes) (hlz4 : Lz4.Undoes bytes) :
    hs.convertVia (.dict d) .binary .dict = some (.dict (dictValue d.spelling)) ∧
      hs.convertVia (.dict d) .compressed .dict = some (.dict (dictValue d.spelling)) ∧
      hs.convertVia (.dict d) .compressed .binary = some (.binary bytes) := by
  have hdecode : Dict.decode bytes = .ok (dictValue d.spelling) :=
    (Dict.decode_of_encode hd h).1 hdepth
  have hunpack := Packed.unpack_compress hlz4 hdecode
  refine ⟨?_, ?_, ?_⟩
  · rw [convertVia, convert_dict_binary h, Option.bind_some]
    exact convert_binary_dict.mpr ⟨_, hdecode, rfl⟩
  · rw [convertVia, convert_dict_compressed h, Option.bind_some]
    exact convert_packed_dict hunpack
  · rw [convertVia, convert_dict_compressed h, Option.bind_some, convert_packed_binary hunpack]
    exact convert_dict_binary (Dict.encode_dictValue_spelling hd h)

theorem convertVia_of_decode (hs : Handles) (h : Dict.decode bytes = .ok d)
    (hlz4 : ∀ again, d.encode = .ok again → Lz4.Undoes again) :
    ∃ d', hs.convertVia (.binary bytes) .compressed .dict = some (.dict d') ∧
      (d' == d) = true := by
  obtain ⟨hwf, hdepth, again, hencode⟩ := Dict.encode_of_decode h
  obtain ⟨d', hunpack, heq⟩ :=
    (Packed.readsBack_of_ofDict hwf (Packed.ofDict_of_encode hencode) hlz4).shallow hdepth
  refine ⟨d', ?_, heq⟩
  rw [convertVia, convert_binary_compressed, convert_binary_dict.mpr ⟨d, h, rfl⟩, Option.bind_some,
    convert_dict_compressed hencode, Option.bind_some]
  exact convert_packed_dict hunpack

theorem isSome_convert_binary : (hs.convert (.binary bytes) .dict).isSome =
    (hs.convert (.binary bytes) .compressed).isSome := by
  rw [convert_binary_compressed]
  cases h : hs.convert (.binary bytes) .dict with
  | none => rfl
  | some v =>
    obtain ⟨d, hdecode, rfl⟩ := convert_binary_dict.mp h
    obtain ⟨-, -, again, hencode⟩ := Dict.encode_of_decode hdecode
    rw [Option.bind_some, convert_dict_compressed hencode]
    rfl

/-- **The forms of a dictionary convert into each other consistently**, where expanding undoes
compressing: a dictionary comes back as an equal one from its octets and from its packed form, and
has the same octets there; octets become a dictionary exactly when they can be packed, and an equal
one by way of the packed form. Every conversion gives the kind that was asked for. -/
theorem convert_commutes (hs : Handles) :
    (∀ d bytes, (Value.dict d).WellFormed → d.encode = .ok bytes → d.depth ≤ depthLimit →
      Lz4.Undoes bytes →
      (∃ v, hs.convertVia (.dict d) .binary .dict = some v ∧ (v == .dict d) = true) ∧
      (∃ v, hs.convertVia (.dict d) .compressed .dict = some v ∧ (v == .dict d) = true) ∧
      hs.convert (.dict d) .binary = some (.binary bytes) ∧
      hs.convertVia (.dict d) .compressed .binary = some (.binary bytes)) ∧
    (∀ bytes, (hs.convert (.binary bytes) .dict).isSome =
        (hs.convert (.binary bytes) .compressed).isSome ∧
      ∀ v, hs.convert (.binary bytes) .dict = some v →
        (∀ again, hs.convert v .binary = some (.binary again) → Lz4.Undoes again) →
        ∃ w, hs.convertVia (.binary bytes) .compressed .dict = some w ∧ (w == v) = true) ∧
    ∀ v target w, hs.convert v target = some w → w.kind = target := by
  refine ⟨?_, fun bytes => ⟨isSome_convert_binary, ?_⟩, fun v target w => kind_of_convert⟩
  · intro d bytes hd h hdepth hlz4
    obtain ⟨hbinary, hpacked, hoctets⟩ := convertVia_of_encode hs hd hdepth h hlz4
    have hl : (Value.dict d).Lifeless := ((Dict.encode_eq_ok_iff hd).mp h).1.1
    have hequal : (Value.dict (dictValue d.spelling) == .dict d) = true :=
      (Value.eqUsing_dict _ d).trans (Codec.eqUsing_dictValue_spelling Packed.beq_refl hd hl)
    exact ⟨⟨_, hbinary, hequal⟩, ⟨_, hpacked, hequal⟩, convert_dict_binary h, hoctets⟩
  · intro v hv hlz4
    obtain ⟨d, hdecode, rfl⟩ := convert_binary_dict.mp hv
    obtain ⟨d', hvia, heq⟩ := convertVia_of_decode hs hdecode fun again hagain =>
      hlz4 again (convert_dict_binary hagain)
    exact ⟨_, hvia, (Value.eqUsing_dict d' d).trans heq⟩

/-- A handle to octets that no dictionary is written as. -/
def untidyHandle : Handle × Handles := empty.new "h" (.binary Dict.untidy)

theorem convert_commutes_untidy :
    (∃ v, empty.convertVia (.dict Dict.assorted) .compressed .dict = some v ∧
      (v == .dict Dict.assorted) = true) ∧
    (∃ v w, empty.convert (.binary Dict.untidy) .dict = some v ∧
      empty.convertVia (.binary Dict.untidy) .compressed .dict = some w ∧ (w == v) = true) ∧
    ∃ v, untidyHandle.2.convert (.resource untidyHandle.1) .dict = some v ∧ v.kind = .dict := by
  obtain ⟨hdict, hbinary, -⟩ := convert_commutes empty
  refine ⟨?_, ?_, ?_⟩
  · have hwf : (Value.dict Dict.assorted).WellFormed := Codec.wellFormed_value (.dict _)
    have hencode : Dict.assorted.encode = .ok (Codec.dictBytes Dict.assorted.spelling) := rfl
    have hlength : (Codec.dictBytes Dict.assorted.spelling).length < Nat.pow 2 32 := by decide
    exact (hdict _ _ hwf hencode (by decide) (Lz4.decompress_compress _ hlength)).2.1
  · have hread : empty.convert (.binary Dict.untidy) .dict =
        some (.dict (Dict.ofValues [("a", .bool true)])) := rfl
    obtain ⟨w, hw, heq⟩ := (hbinary Dict.untidy).2 _ hread fun again hagain => by
      obtain rfl : Codec.dictBytes [("a", .bool 1)] = again :=
        Value.binary.inj (Option.some.inj hagain)
      exact Lz4.decompress_compress _ (by decide)
    exact ⟨_, w, hread, hw, heq⟩
  · have hread : untidyHandle.2.convert (.resource untidyHandle.1) .dict =
        some (.dict (Dict.ofValues [("a", .bool true)])) := rfl
    exact ⟨_, hread, (convert_commutes untidyHandle.2).2.2 _ _ _ hread⟩

end Handles

end ResourceTree
