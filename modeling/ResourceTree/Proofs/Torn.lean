import ResourceTree.Proofs.Artifact
import ResourceTree.Proofs.Codec.Locality
import ResourceTree.Proofs.Codec.Packed

/-!
# Torn artifacts — what is left of an artifact when its last octets are missing

A block that is cut may still expand, for it may end after any literals. What it expands to then
lacks at least the next match, and the octets of a dictionary cannot be cut.

* `Lz4.Expands`: the expansion of a block, sequence by sequence;
* `Lz4.Expands.cut`, **`Lz4.decompress_cut`**: a cut block expands to less;
* **`Dict.not_decode_cut`**: no proper beginning of a dictionary's octets is one's;
* **`Artifact.decode_cut`**: a torn artifact is never read.
-/

namespace ResourceTree

theorem Bytes.split?_append {n : Nat} {bytes first rest : Bytes}
    (h : bytes.split? n = some (first, rest)) (more : Bytes) :
    Bytes.split? n (bytes ++ more) = some (first, rest ++ more) := by
  obtain ⟨rfl, hlen⟩ := Bytes.split?_eq_some_iff.mp h
  exact Bytes.split?_eq_some_iff.mpr ⟨(List.append_assoc ..).symm, hlen⟩

/-! ## Reading with more to come -/

namespace Lz4

variable {room half count offset length : Nat} {rest left : Bytes} {out grown all : Array UInt8}

theorem readExtension_append (h : readExtension half rest = .ok (count, left)) (more : Bytes) :
    readExtension half (rest ++ more) = .ok (count, left ++ more) := by
  induction rest generalizing half with
  | nil => cases h
  | cons b rest ih =>
    rw [readExtension] at h
    rw [List.cons_append, readExtension]
    split_ifs at h ⊢ with hb
    · exact ih h
    · cases h; rfl

theorem readCount_append (h : readCount half rest = .ok (count, left)) (more : Bytes) :
    readCount half (rest ++ more) = .ok (count, left ++ more) := by
  unfold readCount at h ⊢
  split_ifs at h ⊢
  · exact readExtension_append h more
  · cases h; rfl

theorem takeLiterals_eq_ok_iff : takeLiterals room count rest out = .ok (left, grown) ↔
    ∃ literals, rest.split? count = some (literals, left) ∧
      (count ≠ 0 → out.size + count ≤ room) ∧ grown = out.appendList literals := by
  unfold takeLiterals
  by_cases hcount : count = 0
  · subst hcount
    rw [if_pos rfl, show rest.split? 0 = some ([], rest) from
      Bytes.split?_eq_some_iff.mpr ⟨rfl, rfl⟩]
    constructor
    · rintro ⟨⟩
      exact ⟨[], rfl, fun h => absurd rfl h, rfl⟩
    · rintro ⟨literals, ⟨⟩, -, rfl⟩
      rfl
  · rw [if_neg hcount]
    cases rest.split? count with
    | none => simp
    | some cut =>
      by_cases hroom : room < out.size + count
      · simp [hroom, hcount, Nat.not_le.mpr hroom]
      · simp [hroom, Nat.not_lt.mp hroom, Prod.ext_iff, eq_comm, and_comm]

theorem takeMatch_eq_ok_iff : takeMatch room half rest out = .ok (left, grown) ↔
    ∃ word after extra, rest.split? 2 = some (word, after) ∧ Bytes.toNat word ≠ 0 ∧
      readCount half after = .ok (extra, left) ∧ out.size + (4 + extra) ≤ room ∧
      Bytes.toNat word ≤ out.size ∧ grown = copyMatch (Bytes.toNat word) (4 + extra) out := by
  unfold takeMatch
  constructor
  · intro h
    split at h
    · cases h
    · next word after hs =>
      dsimp only at h
      split at h
      · cases h
      · next hzero =>
        cases hc : readCount half after with
        | error fault => rw [hc] at h; cases h
        | ok read =>
          rw [hc] at h
          simp only [bind, Except.bind] at h
          split_ifs at h with hroom hfar
          cases h
          exact ⟨word, after, _, hs, hzero, hc, Nat.not_lt.mp hroom, Nat.not_lt.mp hfar, rfl⟩
  · rintro ⟨word, after, extra, hs, hzero, hc, hroom, hfar, rfl⟩
    rw [hs]
    dsimp only
    rw [if_neg hzero, hc]
    simp only [bind, Except.bind]
    rw [if_neg (Nat.not_lt.mpr hroom), if_neg (Nat.not_lt.mpr hfar)]

theorem takeLiterals_append (h : takeLiterals room count rest out = .ok (left, grown))
    (more : Bytes) : takeLiterals room count (rest ++ more) out = .ok (left ++ more, grown) := by
  obtain ⟨literals, hs, hroom, hgrown⟩ := takeLiterals_eq_ok_iff.mp h
  exact takeLiterals_eq_ok_iff.mpr ⟨literals, Bytes.split?_append hs more, hroom, hgrown⟩

theorem takeMatch_append (h : takeMatch room half rest out = .ok (left, grown)) (more : Bytes) :
    takeMatch room half (rest ++ more) out = .ok (left ++ more, grown) := by
  obtain ⟨word, after, extra, hs, hzero, hc, hrest⟩ := takeMatch_eq_ok_iff.mp h
  exact takeMatch_eq_ok_iff.mpr ⟨word, after ++ more, extra, Bytes.split?_append hs more, hzero,
    readCount_append hc more, hrest⟩

/-! ## The output grows -/

theorem takeLiterals_grows (h : takeLiterals room count rest out = .ok (left, grown)) :
    out.toList <+: grown.toList := by
  obtain ⟨literals, -, -, rfl⟩ := takeLiterals_eq_ok_iff.mp h
  exact ⟨literals, by simp⟩

theorem copyMatch_grows (offset length : Nat) (out : Array UInt8) :
    ∃ added : Bytes, added.length = length ∧
      (copyMatch offset length out).toList = out.toList ++ added := by
  induction length generalizing out with
  | zero => exact ⟨[], rfl, (List.append_nil _).symm⟩
  | succ length ih =>
    obtain ⟨added, hlen, h⟩ := ih (out.push (out.getD (out.size - offset) 0))
    exact ⟨out.getD (out.size - offset) 0 :: added, congrArg (· + 1) hlen,
      by rw [copyMatch, h, Array.toList_push, List.append_assoc, List.singleton_append]⟩

theorem takeMatch_grows (h : takeMatch room half rest out = .ok (left, grown)) :
    ∃ added ≠ [], grown.toList = out.toList ++ added := by
  obtain ⟨word, -, extra, -, -, -, -, -, rfl⟩ := takeMatch_eq_ok_iff.mp h
  obtain ⟨added, hlen, h⟩ := copyMatch_grows (Bytes.toNat word) (4 + extra) out
  exact ⟨added, List.ne_nil_of_length_pos (by omega), h⟩

/-! ## Blocks -/

/-- **A block expands**, sequence by sequence, and ends after literals. -/
inductive Expands (room : Nat) : Bytes → Array UInt8 → Array UInt8 → Prop where
  | last {token : UInt8} {rest : Bytes} {count : Nat} {rest' : Bytes} {out out' : Array UInt8} :
    readCount (token.toNat / 16) rest = .ok (count, rest') →
    takeLiterals room count rest' out = .ok ([], out') →
    Expands room (token :: rest) out out'
  | next {token : UInt8} {rest : Bytes} {count : Nat} {rest' left left' : Bytes}
      {out out' out'' all : Array UInt8} :
    readCount (token.toNat / 16) rest = .ok (count, rest') →
    takeLiterals room count rest' out = .ok (left, out') → left ≠ [] →
    takeMatch room (token.toNat % 16) left out' = .ok (left', out'') →
    Expands room left' out'' all → Expands room (token :: rest) out all

theorem expands_of_expandSequences {steps : Nat}
    (h : expandSequences room steps rest out = .ok all) : Expands room rest out all := by
  induction steps generalizing rest out with
  | zero => cases rest <;> cases h
  | succ steps ih =>
    cases rest with
    | nil => cases h
    | cons token rest =>
      rw [expandSequences] at h
      cases hc : readCount (token.toNat / 16) rest with
      | error fault => rw [hc] at h; cases h
      | ok read =>
        cases hl : takeLiterals room read.1 read.2 out with
        | error fault => simp only [hc, hl, bind, Except.bind] at h; cases h
        | ok taken =>
          obtain ⟨left, out'⟩ := taken
          simp only [hc, hl, bind, Except.bind] at h
          split_ifs at h with hempty
          · cases h
            exact .last hc (List.isEmpty_iff.mp hempty ▸ hl)
          · cases hm : takeMatch room (token.toNat % 16) left out' with
            | error fault => rw [hm] at h; cases h
            | ok matched =>
              rw [hm] at h
              exact .next hc hl (fun he => hempty (List.isEmpty_iff.mpr he)) hm (ih h)

theorem expands_of_expandBlock {bytes : Bytes} (h : expandBlock room rest = .ok bytes) :
    ∃ all, Expands room rest #[] all ∧ all.toList = bytes := by
  unfold expandBlock at h
  cases hall : expandSequences room rest.length rest #[] with
  | error fault => rw [hall] at h; cases h
  | ok all => rw [hall] at h; exact ⟨all, expands_of_expandSequences hall, Except.ok.inj h⟩

theorem Expands.grows (h : Expands room rest out all) : out.toList <+: all.toList := by
  induction h with
  | last _ hl => exact takeLiterals_grows hl
  | next _ hl _ hm _ ih =>
    obtain ⟨added, -, hadded⟩ := takeMatch_grows hm
    exact (takeLiterals_grows hl).trans (.trans ⟨added, hadded.symm⟩ ih)

/-- **A block that still expands after it was cut expands to less**: the sequence at whose literals
it ends goes on with a match in the whole block. -/
theorem Expands.cut {more : Bytes} {less : Array UInt8} (h : Expands room rest out less)
    (hmore : more ≠ []) (hall : Expands room (rest ++ more) out all) :
    ∃ added ≠ [], all.toList = less.toList ++ added := by
  induction h with
  | last hc hl =>
    have hc' := readCount_append hc more
    have hl' := takeLiterals_append hl more
    cases hall with
    | last hc₂ hl₂ =>
      cases hc'.symm.trans hc₂
      cases hl'.symm.trans hl₂
      exact absurd rfl hmore
    | next hc₂ hl₂ _ hm hrest =>
      cases hc'.symm.trans hc₂
      cases hl'.symm.trans hl₂
      obtain ⟨added, hne, hadded⟩ := takeMatch_grows hm
      obtain ⟨later, hlater⟩ := hrest.grows
      exact ⟨added ++ later, List.append_ne_nil_of_left_ne_nil hne later,
        by rw [← hlater, hadded, List.append_assoc]⟩
  | next hc hl hleft hm _ ih =>
    have hc' := readCount_append hc more
    have hl' := takeLiterals_append hl more
    cases hall with
    | last hc₂ hl₂ =>
      cases hc'.symm.trans hc₂
      exact absurd (congrArg Prod.fst (Except.ok.inj (hl'.symm.trans hl₂)))
        (List.append_ne_nil_of_left_ne_nil hleft more)
    | next hc₂ hl₂ _ hm₂ hrest =>
      cases hc'.symm.trans hc₂
      cases hl'.symm.trans hl₂
      cases (takeMatch_append hm more).symm.trans hm₂
      exact ih hrest

/-- **A frame that still expands after it was cut expands to less.** -/
theorem decompress_cut {frame more less whole : Bytes} (hmore : more ≠ [])
    (hless : decompress frame = .ok less) (hwhole : decompress (frame ++ more) = .ok whole) :
    ∃ added ≠ [], whole = less ++ added := by
  unfold decompress at hless hwhole
  cases hs : frame.split? 4 with
  | none => rw [hs] at hless; cases hless
  | some cut =>
    obtain ⟨size, block⟩ := cut
    rw [hs] at hless
    rw [Bytes.split?_append hs] at hwhole
    obtain ⟨out, hout, rfl⟩ := expands_of_expandBlock hless
    obtain ⟨all, hall, rfl⟩ := expands_of_expandBlock hwhole
    exact hout.cut hmore hall

end Lz4

/-! ## Dictionaries -/

namespace Dict

variable {bytes more : Bytes} {d d' : Dict Value}

/-- **No proper beginning of a dictionary's octets is one's.** -/
theorem not_decode_cut (hmore : more ≠ []) (h : Dict.decode (bytes ++ more) = .ok d) :
    Dict.decode bytes ≠ .ok d' := by
  intro h'
  obtain ⟨place, hplace⟩ := decode_of_append h hmore
  exact absurd (hplace.symm.trans h') nofun

theorem not_decodeCompressed_cut (hmore : more ≠ [])
    (h : decodeCompressed (bytes ++ more) = .ok d) : decodeCompressed bytes ≠ .ok d' := by
  intro h'
  obtain ⟨whole, hwhole, hd⟩ := decodeCompressed_eq_ok h
  obtain ⟨less, hless, hd'⟩ := decodeCompressed_eq_ok h'
  obtain ⟨added, hadded, rfl⟩ := Lz4.decompress_cut hmore hless hwhole
  exact not_decode_cut hadded hd hd'

end Dict

/-! ## Artifacts -/

namespace Artifact

variable {bytes p : Bytes} {a : Artifact}

/-- What an artifact that is read consists of. -/
theorem decode_eq_ok (h : decode bytes = .ok a) : ∃ header payload,
    bytes.split? headerLength = some (header, payload) ∧
    if Bytes.toNat (header.drop 8) % 2 = 1 then Dict.decodeCompressed payload = .ok a.dict
    else Dict.decode payload = .ok a.dict := by
  unfold decode at h
  cases hs : bytes.split? headerLength with
  | none => rw [hs] at h; cases h
  | some cut =>
    obtain ⟨header, payload⟩ := cut
    refine ⟨header, payload, rfl, ?_⟩
    rw [hs] at h
    dsimp only at h
    split at h
    · cases h
    split at h
    · cases h
    split at h
    · next dict hread =>
      cases h
      split_ifs at hread ⊢ with hflag
      · exact hread
      · cases hd : Dict.decode payload with
        | error fault => rw [hd] at hread; cases hread
        | ok found => rw [hd] at hread; cases hread; rfl
    · cases h

/-- **A torn artifact is never read**: of the octets of an artifact, compressed in whatever way or
not, no proper beginning is an artifact. -/
theorem decode_cut (h : decode bytes = .ok a) (hp : p <+: bytes) (hne : p ≠ bytes) :
    ∃ fault, decode p = .error fault := by
  obtain ⟨more, rfl⟩ := hp
  have hmore : more ≠ [] := fun he => hne (by rw [he, List.append_nil])
  cases hcut : decode p with
  | error fault => exact ⟨fault, rfl⟩
  | ok a' =>
    exfalso
    obtain ⟨header, payload, hs, hpayload⟩ := decode_eq_ok h
    obtain ⟨header', payload', hs', hpayload'⟩ := decode_eq_ok hcut
    cases (Bytes.split?_append hs' more).symm.trans hs
    split_ifs at hpayload hpayload'
    · exact Dict.not_decodeCompressed_cut hmore hpayload hpayload'
    · exact Dict.not_decode_cut hmore hpayload hpayload'

/-- A compressed artifact of a run of one letter: fifteen literals, fourteen times the octet
before, and five literals. -/
def repetitive : Bytes :=
  mark ++ Bytes.ofNat 4 version ++ [1] ++ Bytes.ofNat 4 34 ++
    (Lz4.Sequence.mk [1, 0, 0, 0, 1, 0, 0, 0, 97, 3, 20, 0, 0, 0, 97] 1 14).bytes ++
    Lz4.literalBlock (List.replicate 5 97)

theorem decode_repetitive :
    decode repetitive = .ok ⟨Dict.ofValues [("a", .string "aaaaaaaaaaaaaaaaaaaa")], true⟩ := by
  obtain ⟨members, hmembers⟩ : ∃ members : List (String × Codec.Spelling),
      members = [("a", .string "aaaaaaaaaaaaaaaaaaaa")] := ⟨_, rfl⟩
  have hfits : (Codec.Spelling.dict members).Fits := by
    subst hmembers
    refine Codec.Spelling.fits_dict.mpr ⟨by decide, fun member hm => ?_⟩
    obtain rfl := List.mem_singleton.mp hm
    have hleaf : (Codec.Spelling.string "aaaaaaaaaaaaaaaaaaaa").IsLeaf := trivial
    have hlength : Codec.Spelling.LengthFits (Bytes.ofString "aaaaaaaaaaaaaaaaaaaa").length := by
      decide
    exact ⟨by decide, (Codec.Spelling.fits_leaf hleaf).mpr hlength⟩
  have hexpanded : Lz4.decompress (repetitive.drop headerLength) =
      .ok (Codec.dictBytes members) := by
    subst hmembers
    decide +kernel
  have hdict : Dict.decode (Codec.dictBytes members) =
      .ok (Dict.ofValues [("a", .string "aaaaaaaaaaaaaaaaaaaa")]) :=
    Dict.decode_eq_ok_iff.mpr ⟨members, hfits, by subst hmembers; decide, rfl, hmembers ▸ rfl⟩
  have hread : Dict.decodeCompressed (repetitive.drop headerLength) =
      .ok (Dict.ofValues [("a", .string "aaaaaaaaaaaaaaaaaaaa")]) := by
    rw [Dict.decodeCompressed, hexpanded]
    dsimp only
    rw [hdict]
  have hdecode := decode_eq 1 (repetitive.drop headerLength)
  rw [if_pos (by decide), hread] at hdecode
  exact hdecode

/-- Cut before its match, it still expands, but to no dictionary. -/
theorem decode_cut_repetitive : ∃ fault,
    decode repetitive = .ok ⟨Dict.ofValues [("a", .string "aaaaaaaaaaaaaaaaaaaa")], true⟩ ∧
    Lz4.decompress ((repetitive.take 30).drop headerLength) =
      .ok [1, 0, 0, 0, 1, 0, 0, 0, 97, 3, 20, 0, 0, 0, 97] ∧
    decode (repetitive.take 30) = .error fault :=
  let ⟨fault, hfault⟩ := decode_cut decode_repetitive (List.take_prefix 30 repetitive) (by decide)
  ⟨fault, decode_repetitive, by decide +kernel, hfault⟩

end Artifact

end ResourceTree
