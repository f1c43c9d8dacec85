import ResourceTree.Json.Source
import ResourceTree.Proofs.Value.Shape

/-!
# The shape of sources

Names are set one after the other while a text is read, so whatever a source holds is well formed.
The octets that are taken are counted, so whatever is wrong with a source is found within it.

* **`Scan.Gives`**: what a scan gives whenever it gives something, and where its faults lie;
* `counts_quotedTail`, `counts_numeral`: strings and numbers in source text;
* `gives_elements`, `gives_members`, `gives_value`: values in source text;
* **`wellFormed_parseSource`**, **`index_le_of_tree`**.
-/

namespace ResourceTree.Json

variable {α β : Type} {post : α → Prop} {post' : β → Prop} {scan : Scan α} {f : α → Scan β}

/-- How many octets there are, with those that were taken. -/
def Cursor.total (c : Cursor) : Nat := c.taken + c.rest.length

/-- **What a scan gives** whenever it finds no fault: it takes as many octets as it counts, and its
faults lie among the octets there are. -/
structure Scan.Gives (post : α → Prop) (scan : Scan α) : Prop where
  post : ∀ {c a c'}, scan c = .ok (a, c') → post a
  total : ∀ {c a c'}, scan c = .ok (a, c') → c'.total = c.total
  within : ∀ {c fault}, scan c = .error fault → fault.index ≤ c.total

/-- A scan of which only the count matters. -/
abbrev Scan.Counts (scan : Scan α) : Prop := scan.Gives fun _ => True

/-! ## One after the other -/

theorem gives_pure {a : α} (h : post a) : Scan.Gives post (pure a) :=
  ⟨by rintro c _ _ ⟨⟩; exact h, by rintro c _ _ ⟨⟩; rfl, nofun⟩

theorem counts_pure (a : α) : (pure a : Scan α).Counts := gives_pure trivial

theorem gives_failHere (problem : Problem) : (failHere problem : Scan α).Gives post :=
  ⟨nofun, nofun, by rintro c _ ⟨⟩; exact Nat.le_add_right _ _⟩

theorem gives_failAhead (problem : Problem) : (failAhead problem : Scan α).Gives post := by
  refine ⟨nofun, nofun, ?_⟩
  rintro ⟨taken, rest⟩ _ ⟨⟩
  cases rest with
  | nil => exact Nat.le_refl taken
  | cons b rest =>
    show taken + 1 ≤ taken + (rest.length + 1)
    omega

theorem Scan.bind_eq_ok {c c' : Cursor} {b : β} (h : (scan >>= f) c = .ok (b, c')) :
    ∃ a c₁, scan c = .ok (a, c₁) ∧ f a c₁ = .ok (b, c') := by
  change Except.bind (scan c) (fun x => f x.1 x.2) = _ at h
  cases hscan : scan c with
  | error fault => rw [hscan] at h; cases h
  | ok x => rw [hscan] at h; exact ⟨x.1, x.2, rfl, h⟩

theorem Scan.bind_eq_error {c : Cursor} {fault : Fault} (h : (scan >>= f) c = .error fault) :
    scan c = .error fault ∨ ∃ a c₁, scan c = .ok (a, c₁) ∧ f a c₁ = .error fault := by
  change Except.bind (scan c) (fun x => f x.1 x.2) = _ at h
  cases hscan : scan c with
  | error fault' => rw [hscan] at h; cases h; exact .inl rfl
  | ok x => rw [hscan] at h; exact .inr ⟨x.1, x.2, rfl, h⟩

theorem Scan.Gives.bind (h : scan.Gives post) (hf : ∀ a, post a → (f a).Gives post') :
    Scan.Gives post' (scan >>= f) where
  post hrun := by
    obtain ⟨a, c₁, hscan, hnext⟩ := Scan.bind_eq_ok hrun
    exact (hf a (h.post hscan)).post hnext
  total hrun := by
    obtain ⟨a, c₁, hscan, hnext⟩ := Scan.bind_eq_ok hrun
    exact ((hf a (h.post hscan)).total hnext).trans (h.total hscan)
  within hrun := by
    rcases Scan.bind_eq_error hrun with hscan | ⟨a, c₁, hscan, hnext⟩
    · exact h.within hscan
    · exact ((hf a (h.post hscan)).within hnext).trans_eq (h.total hscan)

/-- A scan of which nothing is used, before another one. -/
theorem Scan.Counts.andThen (h : scan.Counts) (hf : ∀ a, (f a).Gives post') :
    Scan.Gives post' (scan >>= f) :=
  h.bind fun a _ => hf a

theorem Scan.Counts.discard (h : scan.Counts) : (discard scan : Scan PUnit).Counts :=
  h.andThen fun _ => counts_pure _

/-! ## Octets -/

theorem counts_peek? : peek?.Counts := ⟨fun _ => trivial, by rintro c _ _ ⟨⟩; rfl, nofun⟩

theorem counts_remaining : remaining.Counts := ⟨fun _ => trivial, by rintro c _ _ ⟨⟩; rfl, nofun⟩

theorem counts_next? : next?.Counts := by
  refine ⟨fun _ => trivial, ?_, ?_⟩
  · rintro ⟨taken, rest⟩ a c' hok
    cases rest with
    | nil => cases hok; rfl
    | cons b rest =>
      cases hok
      show taken + 1 + rest.length = taken + (rest.length + 1)
      omega
  · rintro ⟨taken, rest⟩ fault herror
    cases rest <;> cases herror

theorem counts_takeWhile (p : UInt8 → Bool) : (takeWhile p).Counts := by
  refine ⟨fun _ => trivial, ?_, nofun⟩
  rintro c _ _ ⟨⟩
  have hlength := congrArg List.length (List.takeWhile_append_dropWhile (p := p) (l := c.rest))
  rw [List.length_append] at hlength
  show c.taken + (c.rest.takeWhile p).length + (c.rest.dropWhile p).length = c.total
  rw [Nat.add_assoc, hlength]
  rfl

theorem counts_takeUpTo (n : Nat) : (takeUpTo n).Counts := by
  refine ⟨fun _ => trivial, ?_, nofun⟩
  rintro c _ _ ⟨⟩
  have hlength := congrArg List.length (List.take_append_drop n c.rest)
  rw [List.length_append] at hlength
  show c.taken + (c.rest.take n).length + (c.rest.drop n).length = c.total
  rw [Nat.add_assoc, hlength]
  rfl

theorem counts_skip : skip.Counts := counts_next?.discard

theorem counts_skipBlanks : skipBlanks.Counts := (counts_takeWhile isBlank).discard

/-! ## Strings -/

theorem counts_hexUnit : hexUnit.Counts := by
  refine (counts_takeUpTo 4).andThen fun digits => ?_
  split_ifs
  · exact gives_failHere _
  · split
    · exact counts_pure _
    · exact gives_failHere _

theorem counts_expectInPair (wanted : Char) : (expectInPair wanted).Counts := by
  refine counts_next?.andThen fun b => ?_
  cases b with
  | none => exact gives_failHere _
  | some b =>
    dsimp only
    split_ifs
    · exact counts_pure _
    · exact gives_failHere _

theorem counts_unicodeEscape : unicodeEscape.Counts := by
  refine counts_hexUnit.andThen fun unit => ?_
  split_ifs
  · exact gives_failHere _
  · refine (counts_expectInPair _).andThen fun _ => (counts_expectInPair _).andThen fun _ =>
      counts_hexUnit.andThen fun low => ?_
    split_ifs
    · exact counts_pure _
    · exact gives_failHere _
  · exact counts_pure _

theorem counts_escape : escape.Counts := by
  refine counts_next?.andThen fun b => ?_
  cases b with
  | none => exact gives_failHere _
  | some b =>
    dsimp only
    split_ifs
    iterate 6 exact counts_pure _
    · exact counts_unicodeEscape
    · exact gives_failHere _

theorem counts_quotedParts (rounds : Nat) (parts : List Bytes) :
    (quotedParts rounds parts).Counts := by
  induction rounds generalizing parts with
  | zero => exact gives_failHere _
  | succ rounds ih =>
    refine (counts_takeWhile _).andThen fun plain => counts_next?.andThen fun b => ?_
    cases b with
    | none => exact gives_failHere _
    | some b =>
      dsimp only
      split_ifs
      · exact counts_pure _
      · exact counts_escape.andThen fun c => ih _
      · exact gives_failHere _

theorem counts_quotedTail : quotedTail.Counts :=
  counts_remaining.andThen fun _ => (counts_quotedParts _ _).andThen fun _ => counts_pure _

/-! ## Numbers -/

theorem counts_finish (negative : Bool) (significand : Nat) (exponent : Int) :
    (finish negative significand exponent).Counts := by
  unfold finish
  split
  · exact counts_pure _
  · exact gives_failHere _

theorem counts_exponentDigits (n fuel : Nat) : (exponentDigits n fuel).Counts := by
  induction fuel generalizing n with
  | zero => exact counts_pure _
  | succ fuel ih =>
    refine counts_peek?.andThen fun b => ?_
    cases b with
    | none => exact counts_pure _
    | some b =>
      dsimp only
      split_ifs
      · exact counts_skip.andThen fun _ => ih _
      · exact counts_skip.andThen fun _ => counts_pure _
      · exact counts_pure _

theorem counts_exponentPart (negative : Bool) (significand : Nat) (start : Int) :
    (exponentPart negative significand start).Counts := by
  refine counts_skip.andThen fun _ => counts_peek?.andThen fun sign => ?_
  extract_lets afterSign
  have hafter : ∀ down, (afterSign down).Counts := fun down => by
    refine counts_next?.andThen fun b => ?_
    cases b with
    | none => exact gives_failHere _
    | some b =>
      dsimp only
      split
      · exact gives_failHere _
      · refine counts_remaining.andThen fun _ => (counts_exponentDigits _ _).andThen fun n => ?_
        cases n with
        | none =>
          dsimp only
          split
          · exact gives_failHere _
          · exact (counts_takeWhile _).discard.andThen fun _ => counts_pure _
        | some n => exact counts_finish _ _ _
  cases sign with
  | none => exact (counts_pure _).andThen hafter
  | some b =>
    dsimp only
    split_ifs
    · exact counts_skip.andThen fun _ => (counts_pure _).andThen hafter
    · exact counts_skip.andThen fun _ => (counts_pure _).andThen hafter
    · exact (counts_pure _).andThen hafter

theorem counts_tailPart (negative : Bool) (significand : Nat) (exponent : Int) :
    (tailPart negative significand exponent).Counts := by
  refine counts_peek?.andThen fun b => ?_
  split_ifs
  · exact counts_exponentPart _ _ _
  · exact counts_finish _ _ _

theorem counts_fractionPart (negative : Bool) (significand : Nat) (exponent : Int) :
    (fractionPart negative significand exponent).Counts := by
  refine counts_skip.andThen fun _ => (counts_takeWhile _).andThen fun digits => ?_
  split_ifs
  · refine counts_peek?.andThen fun b => ?_
    cases b <;> exact gives_failAhead _
  · exact counts_tailPart _ _ _

/-- **A numeral.** -/
theorem counts_numeral (negative : Bool) : (numeral negative).Counts := by
  refine counts_next?.andThen fun b => ?_
  cases b with
  | none => exact gives_failHere _
  | some b =>
    dsimp -zeta only
    split
    · exact gives_failHere _
    · extract_lets afterDigits
      have hafter : ∀ more, (afterDigits more).Counts := fun more => by
        refine counts_peek?.andThen fun after => ?_
        split_ifs
        · exact counts_fractionPart _ _ _
        · exact counts_pure _
        · exact counts_tailPart _ _ _
      split
      · refine counts_peek?.andThen fun d => ?_
        cases d with
        | none => exact (counts_pure _).andThen hafter
        | some d =>
          dsimp only
          split_ifs
          · exact Scan.Counts.andThen (gives_failAhead _) hafter
          · exact (counts_pure _).andThen hafter
      · exact (counts_takeWhile _).andThen hafter

/-! ## Values -/

theorem counts_word (rest : List Char) : (word rest).Counts := by
  induction rest with
  | nil => exact counts_pure _
  | cons c rest ih =>
    refine counts_next?.andThen fun b => ?_
    cases b with
    | none => exact gives_failHere _
    | some b =>
      dsimp only
      split_ifs
      · exact ih
      · exact gives_failHere _

theorem gives_scalar (b : UInt8) : (scalar b).Gives Value.WellFormed := by
  unfold scalar
  split_ifs
  iterate 3 exact counts_skip.andThen fun _ => (counts_word _).andThen fun _ => gives_pure nofun
  · exact counts_skip.andThen fun _ => (counts_numeral _).andThen fun _ => gives_pure nofun
  · exact (counts_numeral _).andThen fun _ => gives_pure nofun
  · exact counts_skip.andThen fun _ => counts_quotedTail.andThen fun _ => gives_pure nofun
  · exact gives_failAhead _

section Containers

variable {value : Scan Value} (hvalue : value.Gives Value.WellFormed)

include hvalue

theorem gives_elements (rounds : Nat) (first : Bool) {items : List Value}
    (h : ∀ item ∈ items, item.WellFormed) :
    (elements value rounds first items).Gives fun out => ∀ item ∈ out, item.WellFormed := by
  induction rounds generalizing first items with
  | zero => exact gives_failAhead _
  | succ rounds ih =>
    have hnext : (value >>= fun item => elements value rounds false (item :: items)).Gives
        fun out => ∀ item ∈ out, item.WellFormed :=
      hvalue.bind fun item hitem => ih false (List.forall_mem_cons.mpr ⟨hitem, h⟩)
    refine counts_skipBlanks.andThen fun _ => counts_peek?.andThen fun b => ?_
    cases b with
    | none => exact gives_failAhead _
    | some b =>
      dsimp only
      split_ifs
      · exact counts_skip.andThen fun _ =>
          gives_pure fun item hitem => h item (List.mem_reverse.mp hitem)
      · exact hnext
      · refine counts_skip.andThen fun _ => counts_skipBlanks.andThen fun _ =>
          counts_peek?.andThen fun b => ?_
        cases b with
        | none => exact gives_failAhead _
        | some b =>
          dsimp only
          split_ifs
          · exact gives_failAhead _
          · exact hnext
      · exact gives_failAhead _

theorem gives_member : (member value).Gives fun entry => entry.2.WellFormed := by
  refine counts_skip.andThen fun _ => counts_quotedTail.andThen fun name =>
    counts_skipBlanks.andThen fun _ => counts_peek?.andThen fun b => ?_
  cases b with
  | none => exact gives_failAhead _
  | some b =>
    dsimp only
    split_ifs
    · exact counts_skip.andThen fun _ => hvalue.bind fun v hv => gives_pure hv
    · exact gives_failAhead _

theorem gives_members (rounds : Nat) (first : Bool) {entries : List (String × Value)}
    (h : ∀ entry ∈ entries, entry.2.WellFormed) :
    (members value rounds first entries).Gives fun out => ∀ entry ∈ out, entry.2.WellFormed := by
  induction rounds generalizing first entries with
  | zero => exact gives_failAhead _
  | succ rounds ih =>
    have hnext : (member value >>= fun entry =>
        members value rounds false (Dict.insertSorted entry.1 entry.2 entries)).Gives
          fun out => ∀ entry ∈ out, entry.2.WellFormed := by
      refine (gives_member hvalue).bind fun entry hentry => ih false fun other hother => ?_
      exact (List.mem_cons.mp (Dict.insertSorted_subperm.subset hother)).elim
        (fun heq => heq ▸ hentry) (h other)
    refine counts_skipBlanks.andThen fun _ => counts_peek?.andThen fun b => ?_
    cases b with
    | none => exact gives_failAhead _
    | some b =>
      dsimp only
      split_ifs
      · exact counts_skip.andThen fun _ => gives_pure h
      · exact hnext
      · exact gives_failAhead _
      · refine counts_skip.andThen fun _ => counts_skipBlanks.andThen fun _ =>
          counts_peek?.andThen fun b => ?_
        cases b with
        | none => exact gives_failAhead _
        | some b =>
          dsimp only
          split_ifs
          · exact hnext
          · exact gives_failAhead _
          · exact gives_failAhead _
      · exact gives_failAhead _

end Containers

/-- **A value that is read is well formed.** -/
theorem gives_value (levels : Nat) : (value levels).Gives Value.WellFormed := by
  induction levels with
  | zero =>
    refine counts_skipBlanks.andThen fun _ => counts_peek?.andThen fun b => ?_
    cases b with
    | none => exact gives_failAhead _
    | some b =>
      dsimp only
      split_ifs
      · exact gives_failAhead _
      · exact gives_scalar b
  | succ levels ih =>
    refine counts_skipBlanks.andThen fun _ => counts_peek?.andThen fun b => ?_
    cases b with
    | none => exact gives_failAhead _
    | some b =>
      dsimp only
      split_ifs
      · exact counts_skip.andThen fun _ => counts_remaining.andThen fun _ =>
          (gives_elements ih _ _ (List.forall_mem_nil _)).bind fun items hitems =>
            gives_pure (Value.wellFormed_list hitems)
      · exact counts_skip.andThen fun _ => counts_remaining.andThen fun _ =>
          (gives_members ih _ _ (List.forall_mem_nil _)).bind fun entries hentries =>
            gives_pure (Value.wellFormed_ofValues hentries)
      · exact gives_scalar b

theorem gives_tree : tree.Gives Value.WellFormed := by
  refine (gives_value _).bind fun v hv => counts_skipBlanks.andThen fun _ =>
    counts_peek?.andThen fun b => ?_
  cases b with
  | none => exact gives_pure hv
  | some b => exact gives_failAhead _

/-- **A source is well formed.** -/
theorem wellFormed_parseSource {text : String} {d : Dict Value} (h : parseSource text = .ok d) :
    (Value.dict d).WellFormed := by
  unfold parseSource at h
  split at h
  · cases h
  · next hread =>
    cases h
    exact gives_tree.post hread
  · cases h

/-- **What is wrong with a text is found within it.** -/
theorem index_le_of_tree {bytes : Bytes} {fault : Fault} (h : tree ⟨0, bytes⟩ = .error fault) :
    fault.index ≤ bytes.length :=
  (gives_tree.within h).trans_eq (Nat.zero_add _)

end ResourceTree.Json
