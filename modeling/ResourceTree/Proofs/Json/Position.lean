import Mathlib.Data.List.Infix
import ResourceTree.Proofs.Json.Shape

/-!
# Positions — where faults are reported, and the text around them

A fault is reported by the line and the column behind the octets that lead up to it. The offset that
is worked out again is one octet before, where the line has begun. The text around an offset is cut
at the next boundaries between characters, and no character has more than four octets.

* `LineFrom`: where the line of an index begins; `lineStart_count`, `LineFrom.place`;
* **`LineFrom.byteOffset_eq`**: the offset of a place;
* `isBoundary_iff`, `le_boundaryBefore`, `boundaryFrom_le`: the nearest boundaries;
* `cut?_append`: a part is cut out of its place;
* `Around`, **`exists_around`**: there is text around every offset;
* **`faults_located`**: where a fault is reported, and what is shown around it.
-/

namespace ResourceTree.Json

variable {bytes : Bytes} {text front part back : String} {s start stop offset i j : Nat}

/-! ## Lines -/

/-- The line of index `i` begins at index `s`. -/
structure LineFrom (bytes : Bytes) (s i : Nat) : Prop where
  le : s ≤ i
  behindFeed : s = 0 ∨ bytes[s - 1]? = some lineFeed
  noFeed : lineFeed ∉ (bytes.take i).drop s

theorem exists_lineFrom (bytes : Bytes) (i : Nat) : ∃ s, LineFrom bytes s i := by
  induction i with
  | zero => exact ⟨0, Nat.le_refl 0, .inl rfl, by simp⟩
  | succ i ih =>
    obtain ⟨s, hle, hbehind, hfeed⟩ := ih
    by_cases hi : bytes[i]? = some lineFeed
    · exact ⟨i + 1, Nat.le_refl _, .inr hi, by simp⟩
    · refine ⟨s, Nat.le_succ_of_le hle, hbehind, fun hmem => ?_⟩
      rw [List.take_add_one, List.drop_append] at hmem
      rcases List.mem_append.mp hmem with hmem | hmem
      · exact hfeed hmem
      · exact hi (Option.mem_toList.mp (List.mem_of_mem_drop hmem))

/-- **As many line feeds as stand before a line lead to its beginning.** -/
theorem lineStart_count (hs : s ≤ bytes.length) (h : s = 0 ∨ bytes[s - 1]? = some lineFeed) :
    lineStart ((bytes.take s).count lineFeed) bytes = s := by
  induction bytes generalizing s with
  | nil =>
    obtain rfl := Nat.le_zero.mp hs
    rfl
  | cons b rest ih =>
    cases s with
    | zero => rfl
    | succ s =>
      have hfeed : (b :: rest)[s]? = some lineFeed := h.resolve_left (Nat.succ_ne_zero s)
      have hrest : lineStart ((rest.take s).count lineFeed) rest = s := by
        refine ih (Nat.le_of_succ_le_succ hs) ?_
        cases s with
        | zero => exact .inl rfl
        | succ s => exact .inr hfeed
      rw [List.take_succ_cons, List.count_cons]
      by_cases hb : b = lineFeed
      · subst hb
        simp [lineStart, hrest, Nat.add_comm]
      · -- the line feed before the line is a later octet
        obtain ⟨n, hn⟩ : ∃ n, (rest.take s).count lineFeed = n + 1 := by
          refine Nat.exists_eq_add_one.mpr (List.count_pos_iff.mpr ?_)
          cases s with
          | zero => exact absurd (Option.some.inj hfeed) hb
          | succ s =>
            rw [List.take_add_one, List.getElem?_cons_succ.symm.trans hfeed]
            simp
        rw [hn] at hrest ⊢
        simp [lineStart, hb, hrest, Nat.add_comm]

/-- **The place of an index**: the number of its line, and how many octets of the line precede. -/
theorem LineFrom.place (h : LineFrom bytes s i) (hi : i ≤ bytes.length) :
    Location.of (bytes.take i) = ⟨1 + (bytes.take s).count lineFeed, i - s⟩ := by
  have hsplit : bytes.take i = bytes.take s ++ (bytes.take i).drop s := by
    have := List.take_append_drop s (bytes.take i)
    rwa [List.take_take, Nat.min_eq_left h.le, eq_comm] at this
  have hline : ∀ b ∈ ((bytes.take i).drop s).reverse, decide (b ≠ lineFeed) = true :=
    fun b hb => decide_eq_true fun heq => h.noFeed (heq ▸ List.mem_reverse.mp hb)
  have hbefore : (bytes.take s).reverse.takeWhile (· ≠ lineFeed) = [] := by
    rcases h.behindFeed with rfl | hfeed
    · rfl
    · cases s with
      | zero => rfl
      | succ s =>
        rw [List.take_add_one, show bytes[s]? = _ from hfeed]
        simp
  have hcount : (bytes.take i).count lineFeed = (bytes.take s).count lineFeed := by
    rw [hsplit, List.count_append, List.count_eq_zero_of_not_mem h.noFeed, Nat.add_zero]
  have hcolumn : ((bytes.take i).reverse.takeWhile (· ≠ lineFeed)).length = i - s := by
    rw [hsplit, List.reverse_append, List.takeWhile_append_of_pos hline, hbefore]
    simp
    omega
  rw [Location.of, hcount, hcolumn]

theorem LineFrom.byteOffset_eq (h : LineFrom bytes s i) (hi : i ≤ bytes.length) :
    byteOffset bytes ⟨1 + (bytes.take s).count lineFeed, i - s⟩ = max (i - 1) s := by
  have hs := h.le
  have hstart := lineStart_count (Nat.le_trans hs hi) h.behindFeed
  simp only [byteOffset, Nat.add_sub_cancel_left, hstart]
  omega

theorem LineFrom.earlier {j : Nat} (h : LineFrom bytes s i) (hs : s ≤ j) (hj : j ≤ i) :
    LineFrom bytes s j := by
  have hinit : bytes.take j <+: bytes.take i := List.take_prefix_take_left hj
  exact ⟨hs, h.behindFeed, fun hmem => h.noFeed ((hinit.drop s).subset hmem)⟩

/-! ## Boundaries -/

theorem length_ofString (text : String) : (Bytes.ofString text).length = text.utf8ByteSize := by
  change text.toByteArray.data.toList.length = _
  rw [Array.length_toList]
  exact String.size_toByteArray

theorem isBoundary_iff : isBoundary text i = true ↔
    ∃ front back : String, text = front ++ back ∧ i = front.utf8ByteSize := by
  rw [isBoundary, String.Pos.Raw.isValid_eq_true_iff, String.Pos.Raw.isValid_iff_exists_append]
  simp only [String.Pos.Raw.ext_iff, String.byteIdx_rawEndPos]

theorem exists_char_at (h : i < text.utf8ByteSize) :
    ∃ (front : String) (c : Char) (back : String), text = front.push c ++ back ∧
      front.utf8ByteSize ≤ i ∧ i < front.utf8ByteSize + c.utf8Size := by
  induction text using String.push_induction with
  | empty => exact absurd h (Nat.not_lt_zero i)
  | push text d ih =>
    by_cases hi : i < text.utf8ByteSize
    · obtain ⟨front, c, back, rfl, hle, hlt⟩ := ih hi
      refine ⟨front, c, back.push d, ?_, hle, hlt⟩
      rw [String.push_eq_append d, String.push_eq_append d, String.append_assoc]
    · rw [String.utf8ByteSize_push] at h
      exact ⟨text, d, "", by rw [String.append_empty], Nat.not_lt.mp hi, h⟩

theorem pos?_of_isBoundary (h : isBoundary text i = true) :
    ∃ p : text.Pos, text.pos? ⟨i⟩ = some p ∧ p.offset.byteIdx = i := by
  have hvalid := String.Pos.Raw.isValid_eq_true_iff.mp h
  exact ⟨text.pos ⟨i⟩ hvalid, by simp [String.pos?, String.Slice.pos?, hvalid]; rfl, rfl⟩

theorem cut?_append : cut? (front ++ part ++ back) front.utf8ByteSize
    (front.utf8ByteSize + part.utf8ByteSize) = some part := by
  obtain ⟨p, hp, hpi⟩ : ∃ p, (front ++ part ++ back).pos? ⟨front.utf8ByteSize⟩ = some p ∧
      p.offset.byteIdx = front.utf8ByteSize :=
    pos?_of_isBoundary (isBoundary_iff.mpr ⟨front, part ++ back, String.append_assoc, rfl⟩)
  obtain ⟨q, hq, hqi⟩ : ∃ q,
      (front ++ part ++ back).pos? ⟨front.utf8ByteSize + part.utf8ByteSize⟩ = some q ∧
      q.offset.byteIdx = front.utf8ByteSize + part.utf8ByteSize :=
    pos?_of_isBoundary (isBoundary_iff.mpr ⟨front ++ part, back, rfl, by simp⟩)
  have hpart : (front ++ part ++ back).extract p q = part := by
    rw [← String.toByteArray_inj, String.toByteArray_extract, hpi, hqi, String.toByteArray_append,
      ByteArray.extract_append, String.toByteArray_append,
      ByteArray.extract_append_eq_right (by simp) (by simp)]
    simp
  simp [cut?, hp, hq, hpart]

theorem exists_parts (hstart : isBoundary text start = true) (hstop : isBoundary text stop = true)
    (hle : start ≤ stop) : ∃ front part back : String, text = front ++ part ++ back ∧
      start = front.utf8ByteSize ∧ stop = front.utf8ByteSize + part.utf8ByteSize := by
  obtain ⟨front, rest, rfl, rfl⟩ := isBoundary_iff.mp hstart
  rw [isBoundary, String.Pos.Raw.isValid_eq_true_iff, String.Pos.Raw.isValid_append] at hstop
  rcases hstop with hstop | ⟨-, hstop⟩
  · -- behind the first part nothing is in the first part but its end
    have hend : stop ≤ front.utf8ByteSize := hstop.le_rawEndPos
    exact ⟨front, "", rest, by simp, rfl, by simp; omega⟩
  · obtain ⟨part, back, rfl, hpart⟩ := String.Pos.Raw.isValid_iff_exists_append.mp hstop
    have hsize : stop - front.utf8ByteSize = part.utf8ByteSize :=
      congrArg String.Pos.Raw.byteIdx hpart
    exact ⟨front, part, back, String.append_assoc.symm, rfl, by omega⟩

theorem boundaryBefore_le (text : String) (i : Nat) : boundaryBefore text i ≤ i := by
  induction i with
  | zero => exact Nat.le_refl 0
  | succ i ih =>
    rw [boundaryBefore]
    split
    · exact Nat.le_refl _
    · exact Nat.le_succ_of_le ih

theorem isBoundary_zero (text : String) : isBoundary text 0 = true :=
  isBoundary_iff.mpr ⟨"", text, by simp, rfl⟩

theorem isBoundary_boundaryBefore (text : String) (i : Nat) :
    isBoundary text (boundaryBefore text i) = true := by
  induction i with
  | zero => exact isBoundary_zero text
  | succ i ih =>
    rw [boundaryBefore]
    split
    · assumption
    · exact ih

theorem le_boundaryBefore (hj : isBoundary text j = true) (hji : j ≤ i) :
    j ≤ boundaryBefore text i := by
  induction i with
  | zero => exact hji
  | succ i ih =>
    rw [boundaryBefore]
    split
    · exact hji
    · next hno =>
      have hne : j ≠ i + 1 := fun heq => hno (heq ▸ hj)
      exact ih (by omega)

theorem le_boundaryFrom (text : String) (i : Nat) : i ≤ boundaryFrom text i := by
  fun_induction boundaryFrom text i with
  | case1 i _ ih => omega
  | case2 i _ => exact Nat.le_refl i

theorem isBoundary_end (text : String) : isBoundary text text.utf8ByteSize = true :=
  isBoundary_iff.mpr ⟨text, "", by simp, rfl⟩

theorem isBoundary_boundaryFrom (hi : i ≤ text.utf8ByteSize) :
    isBoundary text (boundaryFrom text i) = true := by
  fun_induction boundaryFrom text i with
  | case1 i h ih => exact ih h.1
  | case2 i h =>
    by_contra hno
    obtain rfl : i = text.utf8ByteSize :=
      Nat.le_antisymm hi (Nat.not_lt.mp fun hlt => h ⟨hlt, hno⟩)
    exact hno (isBoundary_end text)

theorem boundaryFrom_le (hj : isBoundary text j = true) (hij : i ≤ j) :
    boundaryFrom text i ≤ j := by
  fun_induction boundaryFrom text i with
  | case1 i h ih => exact ih (Nat.lt_of_le_of_ne hij fun heq => h.2 (heq ▸ hj))
  | case2 i _ => exact hij

/-- Around every index that is not a boundary there is a character, of four octets at most. -/
theorem exists_boundaries_near (hi : i ≤ text.utf8ByteSize) : ∃ j k,
    isBoundary text j = true ∧ isBoundary text k = true ∧
      j ≤ i ∧ i ≤ j + 3 ∧ i ≤ k ∧ k ≤ i + 3 := by
  rcases Nat.eq_or_lt_of_le hi with rfl | hi
  · exact ⟨_, _, isBoundary_end text, isBoundary_end text, by omega⟩
  · obtain ⟨front, c, back, rfl, hle, hlt⟩ := exists_char_at hi
    have hc := c.utf8Size_le_four
    have hbefore : isBoundary (front.push c ++ back) front.utf8ByteSize = true :=
      isBoundary_iff.mpr ⟨front, String.singleton c ++ back, by
        rw [String.push_eq_append, String.append_assoc], rfl⟩
    have hbehind : isBoundary (front.push c ++ back) (front.push c).utf8ByteSize = true :=
      isBoundary_iff.mpr ⟨front.push c, back, rfl, rfl⟩
    rw [String.utf8ByteSize_push] at hbehind
    rcases Nat.eq_or_lt_of_le hle with rfl | hle
    · exact ⟨_, _, hbefore, hbefore, by omega⟩
    · exact ⟨_, _, hbefore, hbehind, by omega⟩

/-! ## The text around an offset -/

/-- A part of a text that shows the sixteen octets on either side of an offset, as far as the text
goes, and at most three octets more at each end. -/
def Around (text : String) (offset : Nat) (part : String) : Prop :=
  ∃ front back : String, text = front ++ part ++ back ∧
    front.utf8ByteSize ≤ offset - 16 ∧ offset - 16 ≤ front.utf8ByteSize + 3 ∧
    min (offset + 16) text.utf8ByteSize ≤ front.utf8ByteSize + part.utf8ByteSize ∧
    front.utf8ByteSize + part.utf8ByteSize ≤ min (offset + 16) text.utf8ByteSize + 3

/-- **There is text around every offset of a text.** -/
theorem exists_around (h : offset ≤ text.utf8ByteSize) :
    ∃ part, snippet? text offset = some (onOneLine part) ∧ Around text offset part := by
  have hlow : offset - snippetRadius ≤ text.utf8ByteSize := by omega
  have hhigh : min (offset + snippetRadius) text.utf8ByteSize ≤ text.utf8ByteSize := by omega
  -- both ends are boundaries, and lie outside the octets to be shown
  have hstart := isBoundary_boundaryBefore text (offset - snippetRadius)
  have hstop := isBoundary_boundaryFrom hhigh
  have hback := boundaryBefore_le text (offset - snippetRadius)
  have hon := le_boundaryFrom text (min (offset + snippetRadius) text.utf8ByteSize)
  -- but not behind the nearest boundaries
  obtain ⟨j, -, hj, -, hji, hij, -⟩ := exists_boundaries_near hlow
  obtain ⟨-, k, -, hk, -, -, hik, hki⟩ := exists_boundaries_near hhigh
  have hback3 := le_boundaryBefore hj hji
  have hon3 := boundaryFrom_le hk hik
  obtain ⟨front, part, back, htext, hfront, hpart⟩ := exists_parts hstart hstop (by omega)
  refine ⟨part, ?_, front, back, htext, ?_⟩
  · rw [snippet?, hfront, hpart, htext, cut?_append]
    rfl
  · rw [hfront] at hback hback3
    rw [hpart] at hon hon3
    unfold snippetRadius at *
    omega

/-! ## Faults -/

theorem exists_errorAt_eq (h : offset ≤ text.utf8ByteSize) (message : String) : ∃ part,
    errorAt text offset message = .parse offset (onOneLine part) message ∧
      Around text offset part := by
  obtain ⟨part, hshown, haround⟩ := exists_around h
  exact ⟨part, by rw [errorAt, hshown]; rfl, haround⟩

/-- **Every error of a source is at an offset within it.** -/
theorem exists_offset_of_parseSource {error : ResourceError}
    (h : parseSource text = .error error) :
    ∃ offset message, offset ≤ text.utf8ByteSize ∧ error = errorAt text offset message := by
  unfold parseSource at h
  split at h
  · next fault hfault =>
    obtain rfl := Except.error.inj h
    have hindex := index_le_of_tree hfault
    obtain ⟨s, hline⟩ := exists_lineFrom (Bytes.ofString text) fault.index
    have hs := hline.le
    refine ⟨_, _, ?_, rfl⟩
    rw [hline.place hindex, hline.byteOffset_eq hindex, ← length_ofString]
    omega
  · cases h
  · exact ⟨0, _, Nat.zero_le _, (Except.error.inj h).symm⟩

/-- **Where a fault is reported, and what is shown around it.** The line and the column of an index
have their offset on the line of the index, at most one octet before it. Around every offset of the
text a part of the text is shown, and every error of a source has such an offset and such a part. -/
theorem faults_located (text : String) :
    (∀ i ≤ text.utf8ByteSize, ∀ s, LineFrom (Bytes.ofString text) s i →
      let bytes := Bytes.ofString text
      let place : Location := ⟨1 + (bytes.take s).count lineFeed, i - s⟩
      Location.of (bytes.take i) = place ∧ byteOffset bytes place = max (i - 1) s ∧
        max (i - 1) s ≤ text.utf8ByteSize ∧ LineFrom bytes s (max (i - 1) s) ∧
        max (i - 1) s ≤ i ∧ i ≤ max (i - 1) s + 1) ∧
    (∀ offset ≤ text.utf8ByteSize, ∃ part,
      snippet? text offset = some (onOneLine part) ∧ Around text offset part) ∧
    ∀ error, parseSource text = .error error → ∃ offset part message,
      error = .parse offset (onOneLine part) message ∧ offset ≤ text.utf8ByteSize ∧
        Around text offset part := by
  refine ⟨fun i hi s hline => ?_, fun offset h => exists_around h, fun error h => ?_⟩
  · have hs := hline.le
    rw [← length_ofString] at hi
    refine ⟨hline.place hi, hline.byteOffset_eq hi, ?_, hline.earlier (by omega) (by omega),
      by omega, by omega⟩
    rw [← length_ofString]
    omega
  · obtain ⟨offset, message, hle, rfl⟩ := exists_offset_of_parseSource h
    obtain ⟨part, heq, haround⟩ := exists_errorAt_eq hle message
    exact ⟨offset, part, message, heq, hle, haround⟩

/-- A source with a fault in its third line, and characters of several octets around it. -/
def tornSource : String := "\x7b\n  \"Maß\": 1,\n\"名前\":?, \"値\": \"名前名前\"\n\x7d"

theorem lineFrom_torn : LineFrom (Bytes.ofString tornSource) 15 25 :=
  ⟨by decide, by decide, by decide⟩

theorem parseSource_torn : parseSource tornSource =
    .error (errorAt tornSource 24 "expected value at line 3 column 10") := rfl

/-- The fault behind twenty-five octets is reported at line 3 and column 10, and the text around its
offset is cut inside a character on both sides. -/
theorem faults_located_torn :
    (25 ≤ tornSource.utf8ByteSize ∧ LineFrom (Bytes.ofString tornSource) 15 25 ∧
      Location.of ((Bytes.ofString tornSource).take 25) = ⟨3, 10⟩ ∧
      byteOffset (Bytes.ofString tornSource) ⟨3, 10⟩ = 24 ∧
      LineFrom (Bytes.ofString tornSource) 15 24) ∧
    (24 ≤ tornSource.utf8ByteSize ∧ isBoundary tornSource (24 - 16) = false ∧
      isBoundary tornSource (24 + 16) = false ∧
      ∃ part, snippet? tornSource 24 = some (onOneLine part) ∧ Around tornSource 24 part) ∧
    ∃ offset part message,
      parseSource tornSource = .error (.parse offset (onOneLine part) message) ∧
        offset ≤ tornSource.utf8ByteSize ∧ Around tornSource offset part := by
  obtain ⟨hplace, hshown, herror⟩ := faults_located tornSource
  obtain ⟨hof, hoffset, -, hline, -, -⟩ := hplace 25 (by decide) 15 lineFrom_torn
  obtain ⟨offset, part, message, heq, hle, haround⟩ := herror _ parseSource_torn
  exact ⟨⟨by decide, lineFrom_torn, hof, hoffset, hline⟩,
    ⟨by decide, by decide, by decide, hshown 24 (by decide)⟩,
    offset, part, message, parseSource_torn.trans (congrArg Except.error heq), hle, haround⟩

end ResourceTree.Json
