import ResourceTree.Artifact
import ResourceTree.Json.Source
import ResourceTree.Proofs.Codec.Packed

/-!
# Artifacts — what is read from them

* `Lz4.eq_of_decompress_compress`: whatever is expanded from compressed octets is what was
  compressed;
* `Dict.eq_of_decode`, **`Artifact.decode_encode_eq`**: whatever is read from the octets of a tree
  equals the tree, and says the same about packing and dependencies;
* **`Artifact.not_source`**: an artifact is no source text.
-/

namespace ResourceTree

/-! ## What comes back -/

namespace Lz4

theorem expandBlock_literalBlock_eq {data again : Bytes} {room : Nat}
    (h : expandBlock room (literalBlock data) = .ok again) : again = data := by
  by_cases hroom : data.length ≤ room
  · rw [expandBlock_literalBlock data room hroom] at h
    exact (Except.ok.inj h).symm
  · -- the literals do not fit
    have hlit : takeLiterals room data.length data #[] =
        .error (.outputTooSmall room data.length) := by
      have hsplit : data.split? data.length = some (data, []) :=
        Bytes.split?_eq_some_iff.mpr ⟨List.append_nil data, rfl⟩
      have hpos : data.length ≠ 0 := by omega
      simp [takeLiterals, hpos, hsplit, Nat.not_le.mp hroom]
    have htoken : (token data.length 0).toNat / 16 = min data.length 15 := by
      simp [token]
      omega
    have hlen : (literalBlock data).length = (extension data.length ++ data).length + 1 := rfl
    unfold expandBlock at h
    rw [hlen, literalBlock, expandSequences, htoken, readCount_extension data.length data] at h
    simp [bind, Except.bind, hlit] at h

/-- **Whatever is expanded from compressed octets is what was compressed.** -/
theorem eq_of_decompress_compress {data again : Bytes}
    (h : decompress (compress data) = .ok again) : again = data := by
  have hstored : decompress (Bytes.ofNat 4 data.length ++ literalBlock data) = .ok again →
      again = data := by
    intro h
    unfold decompress at h
    have hsplit : (Bytes.ofNat 4 data.length ++ literalBlock data).split? 4 =
        some (Bytes.ofNat 4 data.length, literalBlock data) :=
      Bytes.split?_eq_some_iff.mpr ⟨rfl, Bytes.length_ofNat 4 _⟩
    rw [hsplit] at h
    exact expandBlock_literalBlock_eq h
  unfold compress at h
  dsimp only at h
  split at h
  · next found hfound =>
    split_ifs at h with heq
    · rw [hfound] at h
      exact (Except.ok.inj h).symm.trans heq
    · exact hstored h
  · exact hstored h

end Lz4

namespace Codec

theorem get?_dictValue_spelling {d : Dict Value} (h : (Value.dict d).WellFormed)
    (hl : (Value.dict d).Lifeless) (name : String) :
    (dictValue d.spelling).get? name = (d.get? name).map fun v => v.spelling.value := by
  have hmap : ∀ entries : List (String × Value),
      (entries.map (Prod.map id fun v => v.spelling.value)).lookup name =
        (entries.lookup name).map fun v => v.spelling.value := by
    intro entries
    induction entries with
    | nil => rfl
    | cons entry rest ih =>
      rw [List.map_cons, Dict.lookup_cons_entry, Dict.lookup_cons_entry, ih]
      simp only [Prod.map_fst, Prod.map_snd, id]
      split_ifs <;> rfl
  rw [Dict.get?, Dict.lookup_perm Dict.wellFormed_ofValues.nodup (perm_value_spelling h hl), hmap,
    Dict.get?]

theorem asString?_value_spelling (v : Value) : v.spelling.value.asString? = v.asString? := by
  cases v with
  | dict d => rw [Value.spelling_dict]; rfl
  | _ => rfl

theorem asList?_value_spelling (v : Value) :
    v.spelling.value.asList? = v.asList?.map (·.map fun item => item.spelling.value) := by
  cases v with
  | list items => rw [Value.spelling_list, Spelling.value, itemsValue_eq, List.map_map]; rfl
  | dict d => rw [Value.spelling_dict]; rfl
  | _ => rfl

theorem dependencies_dictValue_spelling {d : Dict Value} (h : (Value.dict d).WellFormed)
    (hl : (Value.dict d).Lifeless) : dependencies (dictValue d.spelling) = dependencies d := by
  have hlist : ((dictValue d.spelling).get? Reserved.files).bind Value.asList? =
      ((d.get? Reserved.files).bind Value.asList?).map (·.map fun item => item.spelling.value) := by
    rw [get?_dictValue_spelling h hl]
    cases d.get? Reserved.files with
    | none => rfl
    | some v => exact asList?_value_spelling v
  unfold dependencies
  rw [hlist]
  cases (d.get? Reserved.files).bind Value.asList? with
  | none => rfl
  | some items =>
    simp only [Option.map_some, Option.getD_some, List.filterMap_map, Function.comp_def,
      asString?_value_spelling]

end Codec

namespace Dict

variable {d d' : Dict Value} {bytes : Bytes}

theorem eq_of_decode (hwf : (Value.dict d).WellFormed) (h : d.encode = .ok bytes)
    (h' : Dict.decode bytes = .ok d') : d' = Codec.dictValue d.spelling := by
  obtain ⟨hshallow, hdeep⟩ := Dict.decode_of_encode hwf h
  rcases Nat.lt_or_ge Codec.depthLimit d.depth with hlt | hle
  · obtain ⟨fault, -, hfault⟩ := hdeep hlt
    rw [hfault] at h'
    cases h'
  · exact Except.ok.inj (h'.symm.trans (hshallow hle))

theorem decode_of_decodeCompressed (h : decodeCompressed (Lz4.compress bytes) = .ok d) :
    Dict.decode bytes = .ok d := by
  obtain ⟨again, hagain, hdecode⟩ := decodeCompressed_eq_ok h
  rwa [Lz4.eq_of_decompress_compress hagain] at hdecode

end Dict

namespace Artifact

variable {a a' : Artifact} {b : Bytes}

/-- The octets of an artifact: the mark, the version, the flag and the tree. -/
theorem encode_eq_ok (h : a.encode = .ok b) : ∃ payload, a.dict.encode = .ok payload ∧
    b = mark ++ Bytes.ofNat 4 version ++ [if a.compressed then 1 else 0] ++
      (if a.compressed then Lz4.compress payload else payload) := by
  unfold encode at h
  cases hp : a.dict.encode with
  | error fault => rw [hp] at h; cases h
  | ok payload => rw [hp] at h; exact ⟨payload, rfl, (Except.ok.inj h).symm⟩

theorem decode_eq (flag : UInt8) (payload : Bytes) :
    decode (mark ++ Bytes.ofNat 4 version ++ [flag] ++ payload) =
      match (if flag.toNat % 2 = 1 then Dict.decodeCompressed payload
        else (Dict.decode payload).mapError UnpackFault.dictionary) with
      | .ok dict => .ok ⟨dict, flag.toNat % 2 = 1⟩
      | .error fault => .error (.payload fault) := by
  have hsplit : (mark ++ Bytes.ofNat 4 version ++ [flag] ++ payload).split? headerLength =
      some (mark ++ Bytes.ofNat 4 version ++ [flag], payload) :=
    Bytes.split?_eq_some_iff.mpr ⟨rfl, rfl⟩
  have hmark : (mark ++ Bytes.ofNat 4 version ++ [flag]).take 4 = mark := rfl
  have hversion : Bytes.toNat (((mark ++ Bytes.ofNat 4 version ++ [flag]).drop 4).take 4) =
      version := rfl
  unfold decode
  rw [hsplit]
  exact (if_neg (not_not_intro hmark)).trans (if_neg (not_not_intro hversion))

theorem decode_payload {payload : Bytes} {compressed : Bool}
    (h : decode (mark ++ Bytes.ofNat 4 version ++ [if compressed then 1 else 0] ++
      (if compressed then Lz4.compress payload else payload)) = .ok a') :
    a'.compressed = compressed ∧ Dict.decode payload = .ok a'.dict := by
  rw [decode_eq] at h
  cases compressed with
  | false =>
    change (match (Dict.decode payload).mapError UnpackFault.dictionary with
      | .ok dict => Except.ok (Artifact.mk dict false)
      | .error fault => .error (Fault.payload fault)) = .ok a' at h
    cases hd : Dict.decode payload with
    | error fault => rw [hd] at h; cases h
    | ok d => rw [hd] at h; cases h; exact ⟨rfl, rfl⟩
  | true =>
    change (match Dict.decodeCompressed (Lz4.compress payload) with
      | .ok dict => Except.ok (Artifact.mk dict true)
      | .error fault => .error (Fault.payload fault)) = .ok a' at h
    cases hd : Dict.decodeCompressed (Lz4.compress payload) with
    | error fault => rw [hd] at h; cases h
    | ok d => rw [hd] at h; cases h; exact ⟨rfl, Dict.decode_of_decodeCompressed hd⟩

/-- **Whatever is read from the octets of a tree equals the tree**, and says the same about packing
and dependencies. -/
theorem decode_encode_eq (hwf : (Value.dict a.dict).WellFormed) (h : a.encode = .ok b)
    (h' : decode b = .ok a') : a'.compressed = a.compressed ∧ (a'.dict == a.dict) = true ∧
      dependencies a'.dict = dependencies a.dict := by
  obtain ⟨payload, hp, rfl⟩ := encode_eq_ok h
  obtain ⟨hcompressed, hd⟩ := decode_payload h'
  have hl : (Value.dict a.dict).Lifeless := ((Dict.encode_eq_ok_iff hwf).mp hp).1.1
  have hdict : a'.dict = Codec.dictValue a.dict.spelling := Dict.eq_of_decode hwf hp hd
  rw [hdict]
  exact ⟨hcompressed, Codec.eqUsing_dictValue_spelling Packed.beq_refl hwf hl,
    Codec.dependencies_dictValue_spelling hwf hl⟩

/-- **An artifact is no source text.** -/
theorem not_source {text : String} (h : mark <+: Bytes.ofString text) (d : Dict Value) :
    Json.parseSource text ≠ .ok d := by
  obtain ⟨rest, hrest⟩ := h
  -- no value begins with the first letter of the mark
  have htree : ∀ rest, Json.tree ⟨0, 65 :: rest⟩ = .error ⟨.expectedValue, 1⟩ := fun rest => rfl
  have hmark : Bytes.ofString text = 65 :: ([82, 69, 83] ++ rest) := hrest.symm
  unfold Json.parseSource
  rw [hmark, htree]
  exact nofun

end Artifact

end ResourceTree
