import Mathlib.Data.List.Sort
import ResourceTree.Proofs.Value.Children
import ResourceTree.Reserved

/-!
# Mirrors — live values against those that they are made from

Making a value live comes to its members and elements, and to those of what is packed in it. A live
value has the same shape, and other handles; everything else in it is as it was.

* `Value.Reaches`, `Untyped`: the nodes that making a value live comes to;
* `Value.Blocked`: nodes that lie too deep or cannot be opened; `blocked_dict`, `blocked_opened`;
* **`Value.Mirrors`**: a live value against the one that it is made from;
* `Mirrors.exists_reaches`, `Mirrors.untyped`, **`Mirrors.beq`**: what a live value is like;
* `mirrors_items`, `mirrors_members`: live values from live parts.
-/

namespace ResourceTree

namespace Value

/-! ## Nodes -/

/-- **A node that making a value live comes to**, and how deep it lies: members and elements one
deeper than what holds them, a dictionary as deep as what it is packed in. -/
inductive Reaches : Value → Nat → Value → Prop where
  | here {v : Value} : Reaches v 0 v
  | member {d : Dict Value} {entry : String × Value} {n : Nat} {x : Value}
      (hentry : entry ∈ d.entries) (hreaches : Reaches entry.2 n x) : Reaches (.dict d) (n + 1) x
  | item {items : List Value} {item : Value} {n : Nat} {x : Value}
      (hitem : item ∈ items) (hreaches : Reaches item n x) : Reaches (.list items) (n + 1) x
  | opened {payload : Packed} {d : Dict Value} {n : Nat} {x : Value}
      (hunpack : payload.unpack = .ok d) (hreaches : Reaches (.dict d) n x) :
      Reaches (.packed payload) n x

/-- A packed dictionary that cannot be opened. -/
def Sealed (v : Value) : Prop :=
  ∃ payload fault, v = .packed payload ∧ payload.unpack = .error fault

/-- No dictionary that is reached has a text as its type. -/
def Untyped (v : Value) : Prop :=
  ∀ n d, v.Reaches n (.dict d) → (d.get? Reserved.type).bind Value.asString? = none

/-- Some node lies deeper than there are levels for, or cannot be opened. -/
def Blocked (levels : Nat) (v : Value) : Prop := ∃ n x, v.Reaches n x ∧ (levels ≤ n ∨ x.Sealed)

/-- A value that is live as it is. -/
def IsStill : Value → Prop
  | dict _ | list _ | packed _ | resource _ => False
  | _ => True

variable {v w x : Value} {d live : Dict Value} {items : List Value} {payload : Packed}
  {levels n : Nat}

theorem Reaches.trans {m : Nat} {y : Value} (h : v.Reaches n x) (hy : x.Reaches m y) :
    v.Reaches (n + m) y := by
  induction h with
  | here => rwa [Nat.zero_add]
  | member hentry _ ih =>
    rw [Nat.succ_add]
    exact .member hentry (ih hy)
  | item hitem _ ih =>
    rw [Nat.succ_add]
    exact .item hitem (ih hy)
  | opened hunpack _ ih => exact .opened hunpack (ih hy)

theorem exists_reaches_of_within (h : Within x v) : ∃ n, v.Reaches n x := by
  induction h with
  | self => exact ⟨0, .here⟩
  | member hentry _ ih =>
    obtain ⟨n, hn⟩ := ih
    exact ⟨n + 1, .member hentry hn⟩
  | item hitem _ ih =>
    obtain ⟨n, hn⟩ := ih
    exact ⟨n + 1, .item hitem hn⟩

theorem Untyped.of_reaches (h : v.Untyped) (hx : v.Reaches n x) : x.Untyped := fun m d hd =>
  h (n + m) d (hx.trans hd)

theorem reaches_of_members? (hd : v.members? = some d) (hx : (Value.dict d).Reaches n x) :
    v.Reaches n x := by
  obtain rfl | ⟨payload, rfl, hunpack⟩ := members?_eq_some_iff.mp hd
  · exact hx
  · exact .opened hunpack hx

theorem blocked_zero : v.Blocked 0 := ⟨0, v, .here, .inl (Nat.le_refl 0)⟩

theorem not_blocked_still (h : v.IsStill) : ¬ v.Blocked (levels + 1) := by
  rintro ⟨n, x, hx, hbad⟩
  cases hx with
  | here =>
    rcases hbad with hle | ⟨payload, -, rfl, -⟩
    · exact Nat.not_succ_le_zero _ hle
    · exact h
  | _ => exact h

theorem not_blocked_resource {h : Handle} : ¬ (Value.resource h).Blocked (levels + 1) := by
  rintro ⟨_, _, ⟨⟩, hle | ⟨_, _, ⟨⟩, -⟩⟩
  exact Nat.not_succ_le_zero _ hle

theorem blocked_dict :
    (Value.dict d).Blocked (levels + 1) ↔ ∃ entry ∈ d.entries, entry.2.Blocked levels := by
  constructor
  · rintro ⟨_, x, hx, hbad⟩
    cases hx with
    | here =>
      rcases hbad with hle | ⟨_, _, ⟨⟩, -⟩
      exact absurd hle (Nat.not_succ_le_zero _)
    | member hentry hx => exact ⟨_, hentry, _, x, hx, hbad.imp_left Nat.le_of_succ_le_succ⟩
  · rintro ⟨entry, hentry, n, x, hx, hbad⟩
    exact ⟨n + 1, x, .member hentry hx, hbad.imp_left Nat.succ_le_succ⟩

theorem blocked_list :
    (Value.list items).Blocked (levels + 1) ↔ ∃ item ∈ items, item.Blocked levels := by
  constructor
  · rintro ⟨_, x, hx, hbad⟩
    cases hx with
    | here =>
      rcases hbad with hle | ⟨_, _, ⟨⟩, -⟩
      exact absurd hle (Nat.not_succ_le_zero _)
    | item hitem hx => exact ⟨_, hitem, _, x, hx, hbad.imp_left Nat.le_of_succ_le_succ⟩
  · rintro ⟨item, hitem, n, x, hx, hbad⟩
    exact ⟨n + 1, x, .item hitem hx, hbad.imp_left Nat.succ_le_succ⟩

theorem blocked_sealed {fault : UnpackFault} (hunpack : payload.unpack = .error fault) :
    (Value.packed payload).Blocked levels := ⟨0, _, .here, .inr ⟨_, fault, rfl, hunpack⟩⟩

theorem blocked_opened (hunpack : payload.unpack = .ok d) :
    (Value.packed payload).Blocked levels ↔ (Value.dict d).Blocked levels := by
  constructor
  · rintro ⟨_, x, hx, hbad⟩
    cases hx with
    | here =>
      rcases hbad with hle | ⟨_, fault, ⟨⟩, hfault⟩
      · exact ⟨0, _, .here, .inl hle⟩
      · rw [hunpack] at hfault
        cases hfault
    | opened hunpack' hx =>
      obtain rfl := Except.ok.inj (hunpack.symm.trans hunpack')
      exact ⟨_, x, hx, hbad⟩
  · rintro ⟨n, x, hx, hbad⟩
    exact ⟨n, x, .opened hunpack hx, hbad⟩

/-! ## Live values -/

/-- **A live value mirrors the one that it is made from**: it has the same keys and as many
elements everywhere, what is packed is opened, a handle is one that is given for its name, and all
else is as it was. -/
inductive Mirrors (given : String → Handle → Prop) : Value → Value → Prop where
  | opened {payload : Packed} {d : Dict Value} {w : Value} (hunpack : payload.unpack = .ok d)
      (hmirrors : Mirrors given (.dict d) w) : Mirrors given (.packed payload) w
  | dict {d live : Dict Value} (keys : live.keys = d.keys)
      (members : ∀ name v w, d.get? name = some v → live.get? name = some w → Mirrors given v w) :
      Mirrors given (.dict d) (.dict live)
  | list {items live : List Value} (length : live.length = items.length)
      (elements : ∀ (i : Nat) (v w : Value), items[i]? = some v → live[i]? = some w →
        Mirrors given v w) :
      Mirrors given (.list items) (.list live)
  | resource {h g : Handle} (hgiven : given h.name g) : Mirrors given (.resource h) (.resource g)
  | still {v : Value} (hstill : v.IsStill) : Mirrors given v v

namespace Mirrors

variable {given : String → Handle → Prop}

/-- What mirrors a dictionary is a dictionary, and so is what it mirrors, once it is opened. -/
theorem exists_members (h : Mirrors given v (.dict live)) : ∃ d, v.members? = some d ∧
    live.keys = d.keys ∧
      ∀ name v w, d.get? name = some v → live.get? name = some w → Mirrors given v w := by
  cases h with
  | @opened payload d _ hunpack hmirrors =>
    have hmembers : (Value.packed payload).members? = some d :=
      members?_eq_some_iff.mpr (.inr ⟨payload, rfl, hunpack⟩)
    cases hmirrors with
    | dict keys members => exact ⟨d, hmembers, keys, members⟩
    | still hstill => exact hstill.elim
  | dict keys members => exact ⟨_, rfl, keys, members⟩
  | still hstill => exact hstill.elim

theorem exists_list {live : List Value} (h : Mirrors given v (.list live)) :
    ∃ items, v = .list items ∧ live.length = items.length ∧
      ∀ (i : Nat) (v w : Value), items[i]? = some v → live[i]? = some w → Mirrors given v w := by
  cases h with
  | opened _ hmirrors => cases hmirrors
  | list length elements => exact ⟨_, rfl, length, elements⟩
  | still hstill => exact hstill.elim

theorem exists_handle {g : Handle} (h : Mirrors given v (.resource g)) :
    ∃ o : Handle, v = .resource o ∧ given o.name g := by
  cases h with
  | opened _ hmirrors => cases hmirrors
  | resource hgiven => exact ⟨_, rfl, hgiven⟩
  | still hstill => exact hstill.elim

theorem not_packed (h : Mirrors given v (.packed payload)) : False := by
  cases h with
  | opened _ hmirrors => cases hmirrors
  | still hstill => exact hstill

theorem ne_null (h : Mirrors given v w) (hv : v ≠ .null) : w ≠ .null := by
  rintro rfl
  cases h with
  | opened _ hmirrors => cases hmirrors
  | still => exact hv rfl

theorem asString?_eq (h : Mirrors given v w) : w.asString? = v.asString? := by
  cases h with
  | opened _ hmirrors =>
    cases hmirrors with
    | dict => rfl
    | still hstill => exact hstill.elim
  | _ => rfl

theorem exists_of_get? (keys : live.keys = d.keys) {name : String} (h : live.get? name = some w) :
    ∃ v, d.get? name = some v := by
  rw [← Option.isSome_iff_exists, ← Dict.mem_keys_iff, ← keys, Dict.mem_keys_iff, h]
  rfl

theorem untyped (h : Mirrors given v (.dict live)) (hv : v.Untyped) :
    (live.get? Reserved.type).bind Value.asString? = none := by
  obtain ⟨d, hd, keys, members⟩ := h.exists_members
  have htype := hv 0 d (reaches_of_members? hd .here)
  cases hlive : live.get? Reserved.type with
  | none => rfl
  | some w =>
    obtain ⟨v, hv⟩ := exists_of_get? keys hlive
    rw [hv] at htype
    exact (members _ v w hv hlive).asString?_eq.trans htype

/-- **Every node of a live value mirrors one that lies as deep.** -/
theorem exists_reaches (h : Mirrors given v w) (hw : w.WellFormed) (hx : w.Reaches n x) :
    ∃ y, v.Reaches n y ∧ Mirrors given y x := by
  induction hx generalizing v with
  | here => exact ⟨v, .here, h⟩
  | @member live entry n x hentry _ ih =>
    obtain ⟨d, hd, keys, members⟩ := h.exists_members
    have hget := (Dict.get?_eq_some_iff hw.root).mpr hentry
    obtain ⟨u, hu⟩ := exists_of_get? keys hget
    obtain ⟨y, hy, hmirrors⟩ := ih (members _ u _ hu hget) (hw.member hentry)
    exact ⟨y, reaches_of_members? hd (.member (Dict.mem_of_get? hu) hy), hmirrors⟩
  | @item live item n x hitem _ ih =>
    obtain ⟨items, rfl, length, elements⟩ := h.exists_list
    obtain ⟨i, hi, rfl⟩ := List.mem_iff_getElem.mp hitem
    have hlt : i < items.length := length ▸ hi
    obtain ⟨y, hy, hmirrors⟩ := ih (elements i items[i] _ (List.getElem?_eq_getElem hlt)
      (List.getElem?_eq_getElem hi)) (hw.item hitem)
    exact ⟨y, .item (List.getElem_mem hlt) hy, hmirrors⟩
  | opened => exact h.not_packed.elim

/-- What mirrors a value without anything packed is equal to it, where handles are given for their
own names. -/
theorem beq (h : Mirrors given v w) (hgiven : ∀ name g, given name g → g.name = name)
    (hv : v.WellFormed) (hw : w.WellFormed) (hopen : ∀ n payload, ¬ v.Reaches n (.packed payload)) :
    (w == v) = true := by
  induction h with
  | opened => exact absurd .here (hopen 0 _)
  | @dict d live keys members ih =>
    show eqUsing Packed.beq (.dict live) (.dict d) = true
    rw [eqUsing_dict]
    refine Dict.eqUsing_iff.mpr ⟨?_, fun entry hentry => ?_⟩
    · rw [← Dict.length_keys hw.root, keys, Dict.length_keys hv.root]
    · have hget := (Dict.get?_eq_some_iff hw.root).mpr hentry
      obtain ⟨u, hu⟩ := exists_of_get? keys hget
      have hmem := Dict.mem_of_get? hu
      exact ⟨u, hu, ih _ u _ hu hget (hv.member hmem) (hw.member hentry) fun n payload hx =>
        hopen (n + 1) payload (.member hmem hx)⟩
  | @list items live length elements ih =>
    refine itemsEq_iff_forall₂.mpr (List.forall₂_iff_get.mpr ⟨length, fun i hi hi' => ?_⟩)
    refine ih i items[i] live[i] (List.getElem?_eq_getElem hi') (List.getElem?_eq_getElem hi)
      (hv.item (List.getElem_mem hi')) (hw.item (List.getElem_mem hi)) fun n payload hx => ?_
    exact hopen (n + 1) payload (.item (List.getElem_mem hi') hx)
  | @resource h g hname =>
    show (g.name == h.name) = true
    rw [hgiven _ _ hname]
    exact beq_self_eq_true _
  | still => exact eqUsing_refl Packed.beq_refl hv

end Mirrors

/-! ## Live values from live parts -/

variable {given : String → Handle → Prop} {vs ws : List Value}

theorem exists_of_forall₂ {related : Value → Value → Prop} (h : List.Forall₂ related vs ws)
    {w : Value} (hw : w ∈ ws) : ∃ v ∈ vs, related v w := by
  obtain ⟨i, hi, rfl⟩ := List.mem_iff_getElem.mp hw
  obtain ⟨hlength, hrelated⟩ := List.forall₂_iff_get.mp h
  have hi' : i < vs.length := hlength ▸ hi
  exact ⟨vs[i], List.getElem_mem hi', hrelated i hi' hi⟩

theorem mirrors_items (h : List.Forall₂ (fun v w => v.Mirrors given w ∧ w.WellFormed) vs ws) :
    (Value.list vs).Mirrors given (.list ws) ∧ (Value.list ws).WellFormed := by
  refine ⟨.list h.length_eq.symm fun i v w hv hw => ?_, Value.wellFormed_list fun w hw => ?_⟩
  · obtain ⟨hi, rfl⟩ := List.getElem?_eq_some_iff.mp hv
    obtain ⟨hi', rfl⟩ := List.getElem?_eq_some_iff.mp hw
    exact ((List.forall₂_iff_get.mp h).2 i hi hi').1
  · obtain ⟨v, -, -, hwf⟩ := exists_of_forall₂ h hw
    exact hwf

theorem rel_lookup {entries : List (String × Value)} {related : Value → Value → Prop}
    (h : List.Forall₂ related (entries.map Prod.snd) ws) (name : String) :
    Option.Rel related (entries.lookup name) (((Dict.names entries).zip ws).lookup name) := by
  induction entries generalizing ws with
  | nil => exact .none
  | cons entry rest ih =>
    obtain _ | ⟨hhead, hrest⟩ := h
    rw [Dict.names_cons, List.zip_cons_cons, Dict.lookup_cons_entry, Dict.lookup_cons_entry]
    split_ifs
    · exact .some hhead
    · exact ih hrest

/-- A dictionary mirrors another one where they have the same names, and mirrors below them. -/
theorem mirrors_of_rel {live : Dict Value}
    (hrel : ∀ name, Option.Rel (Mirrors given) (d.get? name) (live.get? name)) :
    (Value.dict d).Mirrors given (.dict live) := by
  refine .dict (List.Pairwise.eq_of_mem_iff Dict.pairwise_keys Dict.pairwise_keys fun name => ?_)
    fun name v w hv hw => ?_
  · rw [Dict.mem_keys_iff, Dict.mem_keys_iff]
    have hboth := hrel name
    generalize d.get? name = v?, live.get? name = w? at hboth ⊢
    cases hboth <;> rfl
  · have hboth := hrel name
    rw [hv, hw] at hboth
    cases hboth with
    | some hmirrors => exact hmirrors

theorem mirrors_members (hd : (Value.dict d).WellFormed)
    (h : List.Forall₂ (fun v w => v.Mirrors given w ∧ w.WellFormed) (d.entries.map Prod.snd) ws) :
    (Value.dict d).Mirrors given (.dict (Dict.ofValues ((Dict.names d.entries).zip ws))) ∧
      (Value.dict (Dict.ofValues ((Dict.names d.entries).zip ws))).WellFormed := by
  have hlength : (Dict.names d.entries).length ≤ ws.length := by
    rw [← h.length_eq, Dict.names, List.length_map, List.length_map]
  have hnodup : (Dict.names ((Dict.names d.entries).zip ws)).Nodup := by
    rw [Dict.names, List.map_fst_zip hlength]
    exact hd.root.nodup
  have hlive : ∀ member ∈ (Dict.names d.entries).zip ws,
      member.2 ≠ .null ∧ member.2.WellFormed := fun member hmember => by
    obtain ⟨v, hv, hmirrors, hwf⟩ := exists_of_forall₂ h (List.of_mem_zip hmember).2
    obtain ⟨entry, hentry, rfl⟩ := List.mem_map.mp hv
    exact ⟨hmirrors.ne_null (hd.nullFree entry hentry), hwf⟩
  refine ⟨mirrors_of_rel fun name => ?_, Value.wellFormed_ofValues fun member hmember =>
    (hlive member hmember).2⟩
  rw [Dict.get?_ofValues hnodup fun member hmember => (hlive member hmember).1]
  exact rel_lookup (h.imp fun _ _ hboth => hboth.1) name

end Value

end ResourceTree
