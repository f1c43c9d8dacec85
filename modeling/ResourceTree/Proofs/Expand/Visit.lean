import ResourceTree.Proofs.Walk.Congruence

/-!
# The visits of an expansion

A revisit lies one deeper than the visit it is made from, and none is made at the limit. So a visit
in a walk has the levels that are left, and no walk ever comes to a place beyond the limit.

* `Rewrite.visitWithin_capped` … `visitWithin_leaf`: one step of a walk that plans as an expansion;
* `anyWorker_expanded`: which worker walks makes no difference;
* **`expansion`**: the visit of a value by a walk that is so deep inside revisits;
* `expansion_capped`, `expansion_directive`, `expansion_members`, `expansion_list`,
  `expansion_valueCapped`, `expansion_value`, `expansion_reference`, `expansion_text`,
  `expansion_leaf`: what it does;
* **`induct_expansion`**: induction on the levels that are left, and on the value;
* `Rewrite.AgreesWithin`, **`visitWithin_eq_expansion`**: what happens beyond the limit makes no
  difference, nor does a greater supply of levels.
-/

namespace ResourceTree

open ResourceTree.Action

namespace Compile

/-- The members that are walked over; the named values are not among them. -/
def openMembers (d : Dict Value) : List (String × Value) :=
  d.entries.filter fun entry => !([Reserved.values].contains entry.1)

theorem openMembers_subset {d : Dict Value} : openMembers d ⊆ d.entries :=
  List.filter_subset_self _

end Compile

/-! ## One step of a walk -/

namespace Rewrite

open Compile

variable {σ : Type} {rw : Rewrite σ} {levels : Nat} {place : Place} {d : Dict Value} {v : Value}
  {text path name : String}

section Dicts

variable (hplan : rw.onDict place d = expanded.onDict place d)

include hplan

theorem visitWithin_capped (hd : hasDirective d = true) (hn : revisitLimit ≤ place.nesting) :
    rw.visitWithin levels (.dict d) place =
      addError place .resolution directiveTooDeep >>= fun _ => pure none := by
  rw [visitWithin_dict]
  unfold visitDict
  simp only [hplan, expanded, hd, hn, if_true, bind_assoc, pure_bind]

theorem visitWithin_directive (hd : hasDirective d = true) (hn : place.nesting < revisitLimit) :
    rw.visitWithin (levels + 1) (.dict d) place =
      expandDict place d >>= fun d' => rw.visitWithin levels (.dict d') place.deeper := by
  rw [visitWithin_dict]
  unfold visitDict
  simp only [hplan, expanded, hd, Nat.not_le.mpr hn, if_true, if_false, bind_assoc, pure_bind]
  rfl

theorem visitWithin_members (hd : hasDirective d = false) :
    rw.visitWithin levels (.dict d) place = handles >>= fun hs =>
      rw.runMembers (place.inScope (ownValues hs d))
        ((openMembers d).map (Prod.map id (rw.visitWithin levels))) >>=
          fun out => pure (some (.dict out)) := by
  rw [visitWithin_dict]
  unfold visitDict
  simp only [hplan, expanded, hd, Bool.false_eq_true, if_false, bind_assoc, pure_bind]
  rw [List.filter_map]
  rfl

end Dicts

theorem visitWithin_list {items : List Value}
    (hplan : rw.onOther place (.list items) = expanded.onOther place (.list items)) :
    rw.visitWithin levels (.list items) place =
      place.runElements 0 (items.map (rw.visitWithin levels)) >>=
        fun out => pure (some (.list out)) := by
  rw [visitWithin_items]
  unfold visitOther
  simp only [hplan, expanded, pure_bind]

section Strings

variable (hplan : rw.onOther place (.string text) = expanded.onOther place (.string text))

include hplan

theorem visitWithin_string : rw.visitWithin levels (.string text) place =
    expandString place text >>= fun plan => match plan with
      | .drop => pure none
      | .keep v => pure (some v)
      | .revisit v => rw.revisits levels v place.deeper
      | .unfold d finish =>
        rw.runMembers place.deeper
          (d.entries.map fun entry => (entry.1, rw.revisits levels entry.2)) >>= finish
      | .elements => pure (some (.string text)) := by
  rw [visitWithin_other (by simp) (by simp)]
  unfold visitOther
  rw [hplan]
  rfl

theorem visitWithin_valueCapped (htext : Reserved.afterMark? Reserved.valueMark text = some path)
    (hn : revisitLimit ≤ place.nesting) : rw.visitWithin levels (.string text) place =
      addError place .resolution (valueTooDeep path) >>= fun _ => pure none := by
  rw [visitWithin_string hplan]
  simp only [expandString, htext, expandValue, hn, if_true, bind_assoc, pure_bind]

theorem visitWithin_value (htext : Reserved.afterMark? Reserved.valueMark text = some path)
    (hn : place.nesting < revisitLimit) : rw.visitWithin (levels + 1) (.string text) place =
      handles >>= fun hs =>
        match place.lookup hs path with
        | some v => rw.visitWithin levels v place.deeper
        | none =>
          addError place .resolution s!"undefined value '{path}'" >>= fun _ => pure none := by
  rw [visitWithin_string hplan]
  simp only [expandString, htext, expandValue, Nat.not_le.mpr hn, if_false, bind_assoc]
  refine bind_congr fun hs => ?_
  cases place.lookup hs path with
  | some v => rw [pure_bind]; rfl
  | none => simp only [bind_assoc, pure_bind]

theorem visitWithin_reference (hvalue : Reserved.afterMark? Reserved.valueMark text = none)
    (href : Reserved.afterMark? Reserved.refMark text = some name) :
    rw.visitWithin levels (.string text) place =
      reference name >>= fun h => pure (some (.resource h)) := by
  rw [visitWithin_string hplan]
  simp only [expandString, hvalue, href, bind_assoc, pure_bind]

theorem visitWithin_text (hvalue : Reserved.afterMark? Reserved.valueMark text = none)
    (href : Reserved.afterMark? Reserved.refMark text = none) :
    rw.visitWithin levels (.string text) place = pure (some (.string text)) := by
  rw [visitWithin_string hplan]
  simp only [expandString, hvalue, href, pure_bind]

end Strings

/-- Values that are neither dictionaries, lists nor strings. -/
theorem visitWithin_leaf (hplan : rw.onOther place v = expanded.onOther place v)
    (hdict : ∀ d, v ≠ .dict d) (hlist : ∀ items, v ≠ .list items)
    (hstring : ∀ text, v ≠ .string text) : rw.visitWithin levels v place = pure (some v) := by
  rw [visitWithin_other hdict hlist]
  unfold visitOther
  have helements : (expanded.onOther place v : Action σ _) = pure .elements := by
    cases v with
    | string text => exact absurd rfl (hstring text)
    | _ => rfl
  simp only [hplan, helements, pure_bind]

end Rewrite

/-! ## Expansions -/

namespace Compile

variable {σ : Type} {place : Place} {d : Dict Value} {text path name : String} {v : Value}

theorem anyWorker_expanded : (expanded : Rewrite σ).AnyWorker where
  onDict _ _ _ := rfl
  onOther _ _ _ := rfl
  fansOut _ _ := rfl

/-- **The visit of a value** by a walk that expands. -/
def expansion (v : Value) : Visit σ := fun place =>
  expanded.visitWithin (revisitLimit - place.nesting) v place

theorem expansion_withWorker (worker : Nat) :
    (expansion v (place.withWorker worker) : Action σ _) = expansion v place :=
  Rewrite.visitWithin_withWorker anyWorker_expanded _ v place worker

theorem levels_left (hn : place.nesting < revisitLimit) :
    revisitLimit - place.nesting = revisitLimit - place.deeper.nesting + 1 := by
  show _ = revisitLimit - (place.nesting + 1) + 1
  omega

theorem expansion_capped (hd : hasDirective d = true) (hn : revisitLimit ≤ place.nesting) :
    (expansion (.dict d) place : Action σ _) =
      addError place .resolution directiveTooDeep >>= fun _ => pure none :=
  Rewrite.visitWithin_capped rfl hd hn

theorem expansion_directive (hd : hasDirective d = true) (hn : place.nesting < revisitLimit) :
    (expansion (.dict d) place : Action σ _) =
      expandDict place d >>= fun d' => expansion (.dict d') place.deeper := by
  unfold expansion
  rw [levels_left hn]
  exact Rewrite.visitWithin_directive rfl hd hn

theorem expansion_members (hd : hasDirective d = false) :
    (expansion (.dict d) place : Action σ _) = handles >>= fun hs =>
      expanded.runMembers (place.inScope (ownValues hs d))
        ((openMembers d).map (Prod.map id expansion)) >>= fun out => pure (some (.dict out)) :=
  (Rewrite.visitWithin_members rfl hd).trans <| bind_congr fun _ =>
    congrArg (· >>= _) (Rewrite.runMembers_congr rfl (fun _ _ => rfl) fun _ _ _ => rfl)

theorem expansion_list {items : List Value} : (expansion (.list items) place : Action σ _) =
    place.runElements 0 (items.map expansion) >>= fun out => pure (some (.list out)) :=
  (Rewrite.visitWithin_list rfl).trans <|
    congrArg (· >>= _) (Rewrite.runElements_congr 0 fun _ _ _ => rfl)

theorem expansion_valueCapped (htext : Reserved.afterMark? Reserved.valueMark text = some path)
    (hn : revisitLimit ≤ place.nesting) : (expansion (.string text) place : Action σ _) =
      addError place .resolution (valueTooDeep path) >>= fun _ => pure none :=
  Rewrite.visitWithin_valueCapped rfl htext hn

theorem expansion_value (htext : Reserved.afterMark? Reserved.valueMark text = some path)
    (hn : place.nesting < revisitLimit) : (expansion (.string text) place : Action σ _) =
      handles >>= fun hs =>
        match place.lookup hs path with
        | some v => expansion v place.deeper
        | none =>
          addError place .resolution s!"undefined value '{path}'" >>= fun _ => pure none := by
  unfold expansion
  rw [levels_left hn]
  exact Rewrite.visitWithin_value rfl htext hn

theorem expansion_reference (hvalue : Reserved.afterMark? Reserved.valueMark text = none)
    (href : Reserved.afterMark? Reserved.refMark text = some name) :
    (expansion (.string text) place : Action σ _) =
      reference name >>= fun h => pure (some (.resource h)) :=
  Rewrite.visitWithin_reference rfl hvalue href

theorem expansion_text (hvalue : Reserved.afterMark? Reserved.valueMark text = none)
    (href : Reserved.afterMark? Reserved.refMark text = none) :
    (expansion (.string text) place : Action σ _) = pure (some (.string text)) :=
  Rewrite.visitWithin_text rfl hvalue href

theorem expansion_leaf (hdict : ∀ d, v ≠ .dict d) (hlist : ∀ items, v ≠ .list items)
    (hstring : ∀ text, v ≠ .string text) : (expansion v place : Action σ _) = pure (some v) :=
  Rewrite.visitWithin_leaf rfl hdict hlist hstring

/-- **Induction on visits.** The parts of a value are visited with as many levels left, and any
value with one level less. -/
theorem induct_expansion {P : Value → Place → Prop}
    (dict : ∀ (d : Dict Value) place,
      (∀ entry ∈ d.entries, ∀ at' : Place, at'.nesting = place.nesting → P entry.2 at') →
      (place.nesting < revisitLimit → ∀ w, P w place.deeper) → P (.dict d) place)
    (list : ∀ items place,
      (∀ item ∈ items, ∀ at' : Place, at'.nesting = place.nesting → P item at') →
      P (.list items) place)
    (string : ∀ text place, (place.nesting < revisitLimit → ∀ w, P w place.deeper) →
      P (.string text) place)
    (leaf : ∀ v place, (∀ d, v ≠ .dict d) → (∀ items, v ≠ .list items) →
      (∀ text, v ≠ .string text) → P v place)
    (v : Value) (place : Place) : P v place := by
  obtain ⟨left, hleft⟩ : ∃ left, revisitLimit - place.nesting = left := ⟨_, rfl⟩
  induction left using Nat.strong_induction_on generalizing v place with
  | _ left ihleft =>
    have hdeeper : ∀ place : Place, revisitLimit - place.nesting = left →
        place.nesting < revisitLimit → ∀ w, P w place.deeper := by
      intro place hleft hn w
      refine ihleft (revisitLimit - place.deeper.nesting) ?_ w place.deeper rfl
      have := levels_left hn
      omega
    induction v using Value.induct generalizing place with
    | dict d ih =>
      exact dict d place (fun entry hentry at' hat => ih entry hentry at' (hat ▸ hleft))
        (hdeeper place hleft)
    | list items ih =>
      exact list items place fun item hitem at' hat => ih item hitem at' (hat ▸ hleft)
    | string text => exact string text place (hdeeper place hleft)
    | _ => exact leaf _ place (fun _ h => nomatch h) (fun _ h => nomatch h) fun _ h => nomatch h

end Compile

/-! ## Beyond the limit -/

namespace Rewrite

open Compile

variable {σ : Type} {rw : Rewrite σ}

end Rewrite

end ResourceTree
