import ResourceTree.Proofs.Codec.Reading

/-!
# Locality — a reader looks at the octets it takes and at no others

Where a reader gives a result, what follows the octets it took does not matter, and where the last
of these are missing it runs out of them before anything else can go wrong. So no octets of a
dictionary begin those of another one.

* `Takes`: the octets a step takes at a place, with both properties;
* `Local`: wherever a step gives a result, it takes octets in this sense;
* `Local.bind`, `local_takeMembers`, **`local_decodeValue`**, `local_decodeDict`;
* `Dict.decode_append`, `Dict.decode_of_append`, **`Dict.decode_prefixFree`**.
-/

namespace ResourceTree

namespace Codec

variable {α β : Type} {r : Reader α} {k : α → Reader β} {a : α} {b : β} {n : Nat}
  {used more : Bytes}

/-- From the place `n` on, the step takes exactly `used` and gives `a`: whatever follows, and no
less will do. -/
structure Takes (r : Reader α) (n : Nat) (used : Bytes) (a : α) : Prop where
  whole : ∀ rest, r ⟨n, used ++ rest⟩ = .ok (a, ⟨n + used.length, rest⟩)
  cut : ∀ first lost, used = first ++ lost → lost ≠ [] →
    ∃ place, r ⟨n, first⟩ = .error (.unexpectedEnd place)

/-- **Wherever the step gives a result, it takes octets and looks at no others.** -/
def Local (r : Reader α) : Prop := ∀ n bytes a input', r ⟨n, bytes⟩ = .ok (a, input') →
  ∃ used, bytes = used ++ input'.rest ∧ Takes r n used a

/-! ## Steps one after another -/

theorem takes_nil (h : ∀ rest, r ⟨n, rest⟩ = .ok (a, ⟨n, rest⟩)) : Takes r n [] a := by
  refine ⟨h, fun first lost heq hlost => absurd ?_ hlost⟩
  exact (List.append_eq_nil_iff.mp heq.symm).2

theorem Takes.bind (hr : Takes r n used a) (hk : Takes (k a) (n + used.length) more b) :
    Takes (r >>= k) n (used ++ more) b := by
  constructor
  case whole =>
    intro rest
    rw [bind_apply, List.append_assoc, hr.whole, List.length_append, ← Nat.add_assoc]
    exact hk.whole rest
  case cut =>
    intro first lost heq hlost
    rw [bind_apply]
    rcases List.append_eq_append_iff.mp heq with ⟨first', rfl, hmore⟩ | ⟨lost', hused, hlost'⟩
    · -- the first step has all it needs, the second one lacks octets
      rw [hr.whole]
      exact hk.cut first' lost hmore hlost
    · rcases eq_or_ne lost' [] with rfl | hne
      · rw [List.append_nil] at hused
        have hwhole := hr.whole []
        rw [List.append_nil, hused] at hwhole
        rw [hwhole, ← hused]
        exact hk.cut [] lost hlost'.symm hlost
      · obtain ⟨place, hplace⟩ := hr.cut first lost' hused hne
        exact ⟨place, by rw [hplace]⟩

theorem local_pure (a : α) : Local (pure a : Reader α) := by
  rintro n bytes b input' h
  obtain ⟨rfl, rfl⟩ := Prod.mk.inj (Except.ok.inj h)
  exact ⟨[], rfl, takes_nil fun _ => rfl⟩

theorem local_fail (fault : DecodeFault) : Local (fail fault : Reader α) :=
  fun _ _ _ _ h => nomatch h

theorem local_position : Local position := by
  rintro n bytes m input' h
  obtain ⟨rfl, rfl⟩ := Prod.mk.inj (Except.ok.inj h)
  exact ⟨[], rfl, takes_nil fun _ => rfl⟩

theorem Local.bind (hr : Local r) (hk : ∀ a, Local (k a)) : Local (r >>= k) := by
  intro n bytes b input' h
  rw [bind_apply] at h
  cases hri : r ⟨n, bytes⟩ with
  | error fault => rw [hri] at h; cases h
  | ok result =>
    obtain ⟨a, taken, rest⟩ := result
    rw [hri] at h
    obtain ⟨used, rfl, hused⟩ := hr n bytes a ⟨taken, rest⟩ hri
    -- the second step starts where the first one ended
    obtain rfl : taken = n + used.length :=
      congrArg (Input.taken ∘ Prod.snd) (Except.ok.inj (hri.symm.trans (hused.whole rest)))
    obtain ⟨more, hmore, htakes⟩ := hk a _ _ b input' h
    exact ⟨used ++ more, by rw [List.append_assoc, ← hmore], hused.bind htakes⟩

theorem Local.map {f : α → β} (hr : Local r) : Local (do return f (← r)) :=
  hr.bind fun a => local_pure (f a)

theorem local_take (count : Nat) : Local (take count) := by
  intro n bytes a input' h
  unfold take at h
  split at h
  · next first rest hs =>
    obtain ⟨rfl, rfl⟩ := Prod.mk.inj (Except.ok.inj h)
    obtain ⟨hbytes, hlength⟩ := Bytes.split?_eq_some_iff.mp hs
    refine ⟨first, hbytes.symm, ⟨fun rest => ?_, fun left lost heq hlost => ⟨n, ?_⟩⟩⟩
    · have hsplit : (first ++ rest).split? count = some (first, rest) :=
        Bytes.split?_eq_some_iff.mpr ⟨rfl, hlength⟩
      simp only [take, hsplit, hlength]
    · have hsplit : left.split? count = none := by
        refine Option.eq_none_iff_forall_ne_some.mpr ?_
        rintro ⟨found, rest⟩ hfound
        obtain ⟨rfl, hfoundLength⟩ := Bytes.split?_eq_some_iff.mp hfound
        have hpos := List.length_pos_iff.mpr hlost
        have hsum := congrArg List.length heq
        simp only [List.length_append] at hsum
        omega
      simp only [take, hsplit]
  · cases h

theorem local_takeWord (width : Nat) : Local (takeWord width) :=
  (local_take width).map (f := Bytes.toNat)

theorem local_takeBytes : Local takeBytes := (local_takeWord 4).bind local_take

theorem local_takeText : Local takeText := by
  refine local_position.bind fun start => local_takeBytes.bind fun bytes => ?_
  cases bytes.toString? with
  | none => exact local_fail _
  | some s => exact local_pure s

theorem local_takeMembers {value : Reader Value} (h : Local value) (count : Nat)
    (d : Dict Value) : Local (takeMembers value count d) := by
  induction count generalizing d with
  | zero => exact local_pure d
  | succ count ih => exact local_takeText.bind fun name => h.bind fun v => ih (d.set name v)

theorem local_takeItems {value : Reader Value} (h : Local value) (count : Nat)
    (items : List Value) : Local (takeItems value count items) := by
  induction count generalizing items with
  | zero => exact local_pure items
  | succ count ih => exact h.bind fun v => ih (v :: items)

/-! ## Dictionaries and values -/

theorem local_decodeDict {levels : Nat} (h : ∀ n < levels, Local (decodeValue n)) :
    Local (decodeDict levels) := by
  cases levels with
  | zero => exact local_fail _
  | succ levels =>
    rw [decodeDict]
    exact (local_takeWord 4).bind fun count =>
      local_takeMembers (h levels levels.lt_succ_self) count ∅

/-- **Reading a value is local**, by induction on the levels that are left. -/
theorem local_decodeValue (levels : Nat) : Local (decodeValue levels) := by
  induction levels using Nat.strong_induction_on with
  | _ levels ih =>
  obtain _ | levels := levels
  · exact local_fail _
  rw [decodeValue]
  refine local_position.bind fun start => (local_takeWord 1).bind fun tag => ?_
  rcases Kind.ofTag? tag with _ | kind
  · exact local_fail _
  cases kind with
  | null => exact local_pure Value.null
  | bool => exact (local_takeWord 1).map
  | number => exact (local_takeWord 8).map
  | string => exact local_takeText.map
  | binary => exact local_takeBytes.map
  | dict => exact (local_decodeDict fun n hn => ih n (Nat.lt_succ_of_lt hn)).map
  | list =>
    exact (local_takeWord 4).bind fun count =>
      (local_takeItems (ih levels levels.lt_succ_self) count []).map
  | object => exact local_fail _
  | compressed => exact local_takeBytes.map
  | resource => exact local_takeText.map

end Codec

namespace Dict

open Codec

variable {bytes more : Bytes} {d : Dict Value}

/-- The octets of a dictionary are taken as a whole. -/
theorem takes_of_decode (h : Dict.decode bytes = .ok d) :
    Takes (decodeDict (depthLimit + 1)) 0 bytes d := by
  unfold Dict.decode at h
  split at h
  · cases h
  · next found input hread =>
    split_ifs at h with hrest
    obtain rfl := Except.ok.inj h
    obtain ⟨used, rfl, htakes⟩ :=
      local_decodeDict (fun levels _ => local_decodeValue levels) 0 bytes found input hread
    rwa [List.isEmpty_iff.mp hrest, List.append_nil]

/-- Octets behind those of a dictionary are left over, all of them. -/
theorem decode_append (h : Dict.decode bytes = .ok d) (hmore : more ≠ []) :
    Dict.decode (bytes ++ more) = .error (.trailing more.length) := by
  unfold Dict.decode
  rw [(takes_of_decode h).whole more]
  exact if_neg fun hempty => hmore (List.isEmpty_iff.mp hempty)

/-- Where the last octets of a dictionary are missing, the data end too early. -/
theorem decode_of_append (h : Dict.decode (bytes ++ more) = .ok d) (hmore : more ≠ []) :
    ∃ place, Dict.decode bytes = .error (.unexpectedEnd place) := by
  obtain ⟨place, hplace⟩ := (takes_of_decode h).cut bytes more rfl hmore
  refine ⟨place, ?_⟩
  unfold Dict.decode
  rw [hplace]

/-- **The format is prefix-free**: what stands behind a dictionary is left over, what is cut off
one is missed, and so of two octet strings of which one begins the other at most one decodes. -/
theorem decode_prefixFree (h : Dict.decode bytes = .ok d) :
    (∀ more, more ≠ [] → Dict.decode (bytes ++ more) = .error (.trailing more.length)) ∧
    (∀ p, p <+: bytes → p ≠ bytes → ∃ place, Dict.decode p = .error (.unexpectedEnd place)) ∧
    ∀ other, other ≠ bytes → other <+: bytes ∨ bytes <+: other →
      ∀ d', Dict.decode other ≠ .ok d' := by
  have hlost : ∀ {p more : Bytes}, p ≠ p ++ more → more ≠ [] := fun hne hempty =>
    hne (by rw [hempty, List.append_nil])
  refine ⟨fun more => decode_append h, ?_, fun other hne hbegins d' hd' => ?_⟩
  · rintro p ⟨more, rfl⟩ hne
    exact decode_of_append h (hlost hne)
  · rcases hbegins with ⟨more, rfl⟩ | ⟨more, rfl⟩
    · obtain ⟨place, hplace⟩ := decode_of_append h (hlost hne)
      exact absurd (hplace.symm.trans hd') nofun
    · exact absurd ((decode_append h (hlost hne.symm)).symm.trans hd') nofun

/-- Octets that no dictionary is written as: a name stands twice, the second time with null, and
true is spelled 7. -/
def ragged : Bytes := dictBytes
  [("b", .list [.dict [("x", .bool 7)], .null]), ("a", .packed [0, 255]), ("b", .null)]

theorem decode_prefixFree_ragged : ∃ d, Dict.decode ragged = .ok d ∧
    Dict.decode (ragged ++ [0, 0]) = .error (.trailing 2) ∧
    ∃ place, Dict.decode (ragged.take 30) = .error (.unexpectedEnd place) := by
  have hdecode : Dict.decode ragged = .ok (Dict.ofValues [("a", .packed ⟨[0, 255]⟩)]) := rfl
  obtain ⟨htrailing, hcut, -⟩ := decode_prefixFree hdecode
  exact ⟨_, hdecode, htrailing [0, 0] nofun, hcut _ (List.take_prefix 30 ragged) (by decide)⟩

end Dict

end ResourceTree
