import ResourceTree.Proofs.Expand.Sources
import ResourceTree.Proofs.Value.Equivalence

/-!
# Layers — one dictionary over another, over another

A member of the upper dictionary hides that of the lower one, but for the named values, where each
binding hides its own kind only. Both rules are those of the first one that has something to say, so
it makes no difference in what order layers are put together.

* `bound?`, `binding?`: the named values of a dictionary, where they are plain;
* **`Layerable`**: a dictionary whose named values are plain, if there are any;
* `bound?_layer`, `binding?_layer`, `contains_layer`, `layerable_layer`: two layers;
* `beq_of_lookups`, **`layer_assoc`**, `layer_empty_left`, `layer_empty_right`;
* `get?_layers`, `binding?_layers`: any number of layers under a dictionary;
* **`layering_laws`**: the laws, and what a dictionary comes to over its imports.
-/

namespace ResourceTree

namespace Handles

@[simp] theorem toDict?_dict (hs : Handles) (d : Dict Value) : hs.toDict? (.dict d) = some d := by
  simp [toDict?, convert, Value.kind, Value.asDict?]

end Handles

namespace Compile

open ResourceTree.Action

variable {σ : Type} {setting : Setting σ} {hs : Handles} {place : Place} {a b c d : Dict Value}
  {fs : List (Dict Value)} {name : String}

/-! ## Plain named values -/

/-- The named values of a dictionary, if they are a dictionary. -/
def bound? (d : Dict Value) : Option (Dict Value) := (d.get? Reserved.values).bind Value.asDict?

/-- What a name is bound to among them. -/
def binding? (d : Dict Value) (name : String) : Option Value := (bound? d).bind (·.get? name)

/-- **A dictionary whose named values are a dictionary**, if it has any. -/
structure Layerable (d : Dict Value) : Prop where
  wellFormed : (Value.dict d).WellFormed
  values : ∀ v, d.get? Reserved.values = some v → ∃ m, v = .dict m

namespace Layerable

theorem get?_values (h : Layerable d) : d.get? Reserved.values = (bound? d).map .dict := by
  unfold bound?
  cases hget : d.get? Reserved.values with
  | none => rfl
  | some v =>
    obtain ⟨m, rfl⟩ := h.values v hget
    rfl

theorem ownValues_eq (h : Layerable d) : ownValues hs d = bound? d := by
  unfold ownValues
  rw [h.get?_values]
  cases bound? d with
  | none => rfl
  | some m => exact hs.toDict?_dict m

theorem bound (h : Layerable d) {m : Dict Value} (hm : bound? d = some m) :
    (Value.dict m).WellFormed := by
  have hget : d.get? Reserved.values = some (.dict m) := by rw [h.get?_values, hm]; rfl
  exact h.wellFormed.member (Dict.mem_of_get? hget)

theorem empty : Layerable ∅ :=
  ⟨Value.wellFormed_dict Dict.wellFormed_empty Dict.nullFree_empty nofun, nofun⟩

end Layerable

/-! ## Two layers -/

theorem wellFormed_merged (ha : (Value.dict a).WellFormed) (hb : (Value.dict b).WellFormed) :
    (Value.dict (Dict.merged a b)).WellFormed := by
  refine Value.wellFormed_dict (Dict.wellFormed_extend ha.root)
    (Dict.nullFree_extend ha.root ha.nullFree) fun entry hentry => ?_
  have hget := (Dict.get?_eq_some_iff (Dict.wellFormed_extend ha.root)).mpr hentry
  have hget : (b.get? entry.1).or (a.get? entry.1) = some entry.2 :=
    (Dict.get?_merged hb.root hb.nullFree).symm.trans hget
  rcases Option.or_eq_some_iff.mp hget with hget | ⟨-, hget⟩
  · exact hb.member (Dict.mem_of_get? hget)
  · exact ha.member (Dict.mem_of_get? hget)

section Layers

variable (ha : Layerable a) (hb : Layerable b)

include ha hb

theorem bound?_merged : bound? (Dict.merged a b) = (bound? b).or (bound? a) := by
  have hget : (Dict.merged a b).get? Reserved.values =
      ((bound? b).map Value.dict).or ((bound? a).map Value.dict) := by
    rw [Dict.get?_merged hb.wellFormed.root hb.wellFormed.nullFree, ha.get?_values, hb.get?_values]
  show ((Dict.merged a b).get? Reserved.values).bind Value.asDict? = _
  rw [hget]
  cases bound? b <;> cases bound? a <;> rfl

/-- **The named values of two layers** are those of the upper one over those of the lower one. -/
theorem bound?_layer :
    bound? (layer hs a b) = Option.merge Dict.merged (bound? a) (bound? b) := by
  have hmerged := bound?_merged ha hb
  unfold layer
  rw [ha.ownValues_eq, hb.ownValues_eq]
  cases hlower : bound? a with
  | none =>
    refine hmerged.trans ?_
    rw [hlower]
    cases bound? b <;> rfl
  | some lower =>
    cases hupper : bound? b with
    | none =>
      refine hmerged.trans ?_
      rw [hlower, hupper]
      rfl
    | some upper =>
      unfold bound?
      dsimp only
      rw [Dict.set_of_ne_null (by simp), Dict.get?_insert_self]
      rfl

theorem layerable_layer : Layerable (layer hs a b) := by
  have hmerged := wellFormed_merged ha.wellFormed hb.wellFormed
  have hbound : ∀ v, (Dict.merged a b).get? Reserved.values = some v → ∃ m, v = .dict m := by
    intro v hv
    rw [Dict.get?_merged hb.wellFormed.root hb.wellFormed.nullFree] at hv
    exact (Option.or_eq_some_iff.mp hv).elim (hb.values v) fun h => ha.values v h.2
  unfold layer
  rw [ha.ownValues_eq, hb.ownValues_eq]
  cases hlower : bound? a with
  | none => exact ⟨hmerged, hbound⟩
  | some lower =>
    cases hupper : bound? b with
    | none => exact ⟨hmerged, hbound⟩
    | some upper =>
      refine ⟨Value.wellFormed_set hmerged (wellFormed_merged (ha.bound hlower) (hb.bound hupper)),
        fun v hv => ?_⟩
      dsimp only at hv
      rw [Dict.set_of_ne_null (by simp), Dict.get?_insert_self] at hv
      exact ⟨_, (Option.some.inj hv).symm⟩

/-- **A binding of the upper layer hides one of the lower layer.** -/
theorem binding?_layer :
    binding? (layer hs a b) name = (binding? b name).or (binding? a name) := by
  unfold binding?
  rw [bound?_layer ha hb]
  cases bound? a with
  | none => cases bound? b <;> simp [Option.merge]
  | some lower =>
    cases hupper : bound? b with
    | none => rfl
    | some upper => exact Dict.get?_merged (hb.bound hupper).root (hb.bound hupper).nullFree

theorem isSome_bound?_layer :
    (bound? (layer hs a b)).isSome = ((bound? b).isSome || (bound? a).isSome) := by
  rw [bound?_layer ha hb]
  cases bound? a <;> cases bound? b <;> rfl

end Layers

theorem get?_layer_of_layerable (hb : Layerable b) (hname : name ≠ Reserved.values) :
    (layer hs a b).get? name = (b.get? name).or (a.get? name) :=
  get?_layer hb.wellFormed.root hb.wellFormed.nullFree hname

/-! ## The laws -/

theorem rel_beq_refl {v : Option Value} (h : ∀ w ∈ v, w.WellFormed) :
    Option.Rel (fun v w => Value.eqUsing Packed.beq v w = true) v v := by
  cases v with
  | none => exact .none
  | some w => exact .some (Value.eqUsing_refl Packed.beq_refl (h w rfl))

/-- **Dictionaries that give the same members and the same named values are equal.** -/
theorem beq_of_lookups (ha : Layerable a) (hb : Layerable b)
    (hmembers : ∀ name, name ≠ Reserved.values → a.get? name = b.get? name)
    (hvalues : (bound? a).isSome = (bound? b).isSome)
    (hbindings : ∀ name, binding? a name = binding? b name) : (a == b) = true := by
  refine (Dict.eqUsing_iff_get? ha.wellFormed.root hb.wellFormed.root).mpr fun name => ?_
  by_cases hname : name = Reserved.values
  · rw [hname, ha.get?_values, hb.get?_values]
    unfold binding? at hbindings
    cases hx : bound? a with
    | none =>
      cases hy : bound? b with
      | none => exact .none
      | some y => simp [hx, hy] at hvalues
    | some x =>
      cases hy : bound? b with
      | none => simp [hx, hy] at hvalues
      | some y =>
        rw [hx, hy] at hbindings
        have hx := ha.bound hx
        refine .some ?_
        rw [Value.eqUsing_dict, Dict.eqUsing_iff_get? hx.root (hb.bound hy).root]
        intro name
        rw [← show x.get? name = y.get? name from hbindings name]
        exact rel_beq_refl fun w hw => hx.member (Dict.mem_of_get? hw)
  · rw [← hmembers name hname]
    exact rel_beq_refl fun w hw => ha.wellFormed.member (Dict.mem_of_get? hw)

/-- **It makes no difference which layers are put together first.** -/
theorem layer_assoc (ha : Layerable a) (hb : Layerable b) (hc : Layerable c) :
    (layer hs a (layer hs b c) == layer hs (layer hs a b) c) = true := by
  have hab : Layerable (layer hs a b) := layerable_layer ha hb
  have hbc : Layerable (layer hs b c) := layerable_layer hb hc
  refine beq_of_lookups (layerable_layer ha hbc) (layerable_layer hab hc) (fun name hname => ?_) ?_
    fun name => ?_
  · rw [get?_layer_of_layerable hbc hname, get?_layer_of_layerable hc hname,
      get?_layer_of_layerable hc hname, get?_layer_of_layerable hb hname, Option.or_assoc]
  · simp only [isSome_bound?_layer, ha, hb, hc, hab, hbc, Bool.or_assoc]
  · rw [binding?_layer ha hbc, binding?_layer hb hc, binding?_layer hab hc, binding?_layer ha hb,
      Option.or_assoc]

theorem layer_empty_left (h : Layerable d) : (layer hs ∅ d == d) = true := by
  refine beq_of_lookups (layerable_layer .empty h) h (fun name hname => ?_) ?_ fun name => ?_
  · rw [get?_layer_of_layerable h hname, Dict.get?_empty, Option.or_none]
  · rw [isSome_bound?_layer .empty h]
    exact Bool.or_false _
  · rw [binding?_layer .empty h]
    exact Option.or_none

theorem layer_empty_right (h : Layerable d) : (layer hs d ∅ == d) = true := by
  refine beq_of_lookups (layerable_layer h .empty) h (fun name hname => ?_) ?_ fun name => ?_
  · rw [get?_layer_of_layerable .empty hname]
    rfl
  · rw [isSome_bound?_layer h .empty]
    rfl
  · rw [binding?_layer h .empty]
    rfl

/-! ## Any number of layers -/

theorem findSome?_cons_or {α : Type} (find : Dict Value → Option α) (found : Option α) :
    found.or ((d :: fs).findSome? find) = (found.or (find d)).or (fs.findSome? find) := by
  rw [Option.or_assoc, List.findSome?_cons]
  cases find d <;> rfl

/-- **A member comes from the first layer that has it.** -/
theorem get?_layers (hd : d.WellFormed ∧ d.NullFree) (hfs : ∀ f ∈ fs, f.WellFormed ∧ f.NullFree)
    (hname : name ≠ Reserved.values) :
    (layers hs fs d).get? name = (d.get? name).or (fs.findSome? (·.get? name)) := by
  induction fs generalizing d with
  | nil => exact (Option.or_none).symm
  | cons f fs ih =>
    obtain ⟨hf, hfs⟩ := List.forall_mem_cons.mp hfs
    show (layers hs fs (layer hs f d)).get? name = _
    rw [ih (clean_layer hf.1 hf.2) hfs, get?_layer hd.1 hd.2 hname, findSome?_cons_or (·.get? name)]

section

variable (hd : Layerable d) (hfs : ∀ f ∈ fs, Layerable f)

include hd hfs

theorem layerable_layers : Layerable (layers hs fs d) := by
  induction fs generalizing d with
  | nil => exact hd
  | cons f fs ih =>
    obtain ⟨hf, hfs⟩ := List.forall_mem_cons.mp hfs
    exact ih (layerable_layer hf hd) hfs

/-- **A named value comes from the first layer that binds it.** -/
theorem binding?_layers :
    binding? (layers hs fs d) name = (binding? d name).or (fs.findSome? (binding? · name)) := by
  induction fs generalizing d with
  | nil => exact (Option.or_none).symm
  | cons f fs ih =>
    obtain ⟨hf, hfs⟩ := List.forall_mem_cons.mp hfs
    show binding? (layers hs fs (layer hs f d)) name = _
    rw [ih (layerable_layer hf hd) hfs, binding?_layer hf hd, findSome?_cons_or (binding? · name)]

end

/-! ## Imports -/

theorem wellFormed_erase (h : (Value.dict d).WellFormed) : (Value.dict (d.erase name)).WellFormed :=
  Value.wellFormed_dict (Dict.wellFormed_erase h.root) (nullFree_erase h.nullFree)
    fun _ hentry => h.member (Dict.subperm_erase.subset hentry)

theorem clean_of_wellFormed (h : (Value.dict d).WellFormed) : d.WellFormed ∧ d.NullFree :=
  ⟨h.root, h.nullFree⟩

theorem clean_erase (h : (Value.dict d).WellFormed) :
    (d.erase name).WellFormed ∧ (d.erase name).NullFree :=
  clean_of_wellFormed (wellFormed_erase h)

theorem bound?_erase (h : d.WellFormed) (hname : name ≠ Reserved.values) :
    bound? (d.erase name) = bound? d := by
  unfold bound?
  rw [Dict.get?_erase h, if_neg hname.symm]

theorem layerable_erase (h : Layerable d) (hname : name ≠ Reserved.values) :
    Layerable (d.erase name) := by
  refine ⟨wellFormed_erase h.wellFormed, fun v hv => h.values v ?_⟩
  rwa [Dict.get?_erase h.wellFormed.root, if_neg hname.symm] at hv

theorem filterMap_imported? {targets : List Value}
    (h : List.Forall₂ (fun t f => imported? setting t = some f) targets fs) :
    targets.filterMap (imported? setting) = fs := by
  induction h with
  | nil => rfl
  | cons hfirst _ ih => rw [List.filterMap_cons_some hfirst, ih]

/-- **The laws of layers, and what comes first among imports.** Take dictionaries whose named values
are a dictionary, if they have any. Then it makes no difference which of three layers are put
together first, and an empty layer changes nothing. So if a dictionary without a template imports
some files, which are all found and read and have no import and no template of their own:

* it comes to a dictionary without an import or a template, which is visited in its stead;
* each member of that is its own member, or else that of the first file that has one;
* where the named values of all are dictionaries, each named value of that is its own, or else that
  of the first file that has one. -/
theorem layering_laws (hs : Handles) :
    (∀ a b c : Dict Value, Layerable a → Layerable b → Layerable c →
      Layerable (layer hs a b) ∧
        (layer hs a (layer hs b c) == layer hs (layer hs a b) c) = true) ∧
    (∀ d : Dict Value, Layerable d →
      (layer hs ∅ d == d) = true ∧ (layer hs d ∅ == d) = true) ∧
    ∀ (setting : Setting σ) (place : Place) (d : Dict Value) (target : Value)
      (fs : List (Dict Value)), (Value.dict d).WellFormed →
      d.get? Reserved.import_ = some target → d.get? Reserved.template = none →
      List.Forall₂ (fun t f => Yields setting hs (some f) (loadImport place t))
        (importTargets target) fs →
      (∀ f ∈ fs, hasDirective f = false) →
      ∃ e, Yields setting hs e (expandDict place d) ∧ hasDirective e = false ∧
        (∀ name, name ≠ Reserved.values → e.get? name =
          ((d.erase Reserved.import_).get? name).or (fs.findSome? (·.get? name))) ∧
        (Layerable d → (∀ f ∈ fs, ∀ v, f.get? Reserved.values = some v → ∃ m, v = .dict m) →
          Layerable e ∧
            ∀ name, binding? e name = (binding? d name).or (fs.findSome? (binding? · name))) := by
  refine ⟨fun a b c ha hb hc => ⟨layerable_layer ha hb, layer_assoc ha hb hc⟩,
    fun d hd => ⟨layer_empty_left hd, layer_empty_right hd⟩, ?_⟩
  intro setting place d target fs hd htarget htemplate hloads hplain
  have hloaded : (importTargets target).filterMap (imported? setting) = fs :=
    filterMap_imported? (hloads.imp fun t f hload => (yields_loadImport place t).unique hload)
  have hfs : ∀ f ∈ fs, (Value.dict f).WellFormed := by
    intro f hf
    obtain ⟨t, -, ht⟩ := List.mem_filterMap.mp (hloaded ▸ hf)
    exact wellFormed_imported? ht
  have hmembers : ∀ name, name ≠ Reserved.values →
      (layers hs fs (d.erase Reserved.import_)).get? name =
        ((d.erase Reserved.import_).get? name).or (fs.findSome? (·.get? name)) :=
    fun name => get?_layers (clean_erase hd) fun f hf => clean_of_wellFormed (hfs f hf)
  -- neither the dictionary nor a file has anything left that would lead on
  have hfiles : ∀ name ∈ [Reserved.import_, Reserved.template],
      fs.findSome? (·.get? name) = none := by
    intro name hname
    refine List.findSome?_eq_none_iff.mpr fun f hf => ?_
    have hplain := hplain f hf
    simp only [List.mem_cons, List.not_mem_nil, or_false] at hname
    rcases hname with rfl | rfl <;> simp_all [hasDirective, Dict.contains]
  have himport : (layers hs fs (d.erase Reserved.import_)).get? Reserved.import_ = none := by
    rw [hmembers _ (by decide), hfiles _ (by simp), Dict.get?_erase hd.root]
    rfl
  have hnone : (layers hs fs (d.erase Reserved.import_)).get? Reserved.template = none := by
    rw [hmembers _ (by decide), hfiles _ (by simp), Dict.get?_erase hd.root,
      if_neg (by decide), htemplate]
    rfl
  have hover : laidOver setting hs place d = layers hs fs (d.erase Reserved.import_) := by
    unfold laidOver overImports
    rw [htarget]
    dsimp only
    rw [hloaded]
    unfold overTemplate
    rw [hnone]
  refine ⟨_, hover ▸ yields_expandDict place d, ?_, hmembers, fun hlocal hvalues => ?_⟩
  · rw [hasDirective, Dict.contains, Dict.contains, himport, hnone]
    rfl
  · have herased : Layerable (d.erase Reserved.import_) := layerable_erase hlocal (by decide)
    have hfs : ∀ f ∈ fs, Layerable f := fun f hf => ⟨hfs f hf, hvalues f hf⟩
    refine ⟨layerable_layers herased hfs, fun name => ?_⟩
    rw [binding?_layers herased hfs]
    unfold binding?
    rw [bound?_erase hd.root (by decide)]

/-- Two files that say something of the same things. -/
def woods : Setting Unit :=
  let oak := "\x7b\"wood\":\"oak\",\"values\":\x7b\"size\":\"large\"\x7d\x7d"
  let pine :=
    "\x7b\"wood\":\"pine\",\"legs\":4,\"values\":\x7b\"size\":\"small\",\"gloss\":\"matt\"\x7d\x7d"
  let files := (MemoryFiles.empty.insert ⟨"/oak.json"⟩ (Bytes.ofString oak)).insert ⟨"/pine.json"⟩
    (Bytes.ofString pine)
  .of ⟨"/"⟩ false (FileView.of files) .empty none

/-- A dictionary that imports both. -/
def bench : Dict Value := Dict.ofValues
  [("import", .list [.string "oak.json", .string "file:pine.json"]), ("seat", .string "plain"),
    ("values", .dict (Dict.ofValues [("gloss", .string "high")]))]

theorem layerable_bench : Layerable bench := by
  refine ⟨Value.wellFormed_ofValues ?_, fun v hv => ?_⟩
  · have htext : ∀ text, (Value.string text).WellFormed :=
      fun _ => Value.wellFormed_leaf nofun nofun
    refine List.forall_mem_cons.mpr ⟨Value.wellFormed_list (by simp [htext]),
      List.forall_mem_cons.mpr ⟨htext _,
        List.forall_mem_singleton.mpr (Value.wellFormed_ofValues ?_)⟩⟩
    exact List.forall_mem_singleton.mpr (htext _)
  · obtain rfl := Option.some.inj hv
    exact ⟨_, rfl⟩

/-- What can be seen of a file: whether it leads on, whether its named values are plain, its wood
and its size. -/
def looks (f : Dict Value) : Bool × Bool × Option String × Option String :=
  (hasDirective f, (f.get? Reserved.values).all fun v => v.asDict?.isSome,
    (f.get? "wood").bind Value.asString?, (binding? f "size").bind Value.asString?)

theorem plain_of_looks {f : Dict Value} {seen : Option String × Option String}
    (h : looks f = (false, true, seen)) :
    hasDirective f = false ∧ ∀ v, f.get? Reserved.values = some v → ∃ m, v = .dict m := by
  obtain ⟨hdirective, hvalues, -⟩ : hasDirective f = false ∧
      (f.get? Reserved.values).all (fun v => v.asDict?.isSome) = true ∧ _ := by
    simpa [looks] using h
  refine ⟨hdirective, fun v hv => ?_⟩
  rw [hv] at hvalues
  cases v with
  | dict m => exact ⟨m, rfl⟩
  | _ => simp [Value.asDict?] at hvalues

/-- The bench is of oak and large, as the first file says, and has the gloss that it asks for
itself. -/
theorem layering_laws_bench : ∃ oak pine e,
    Yields woods .empty (some oak) (loadImport (Place.root 0) (.string "oak.json")) ∧
    Yields woods .empty (some pine) (loadImport (Place.root 0) (.string "file:pine.json")) ∧
    (layer .empty pine (layer .empty oak bench) == layer .empty (layer .empty pine oak) bench) =
      true ∧
    (layer .empty ∅ bench == bench) = true ∧
    Yields woods .empty e (expandDict (Place.root 0) bench) ∧
    (e.get? "wood").bind Value.asString? = some "oak" ∧
    (e.get? "seat").bind Value.asString? = some "plain" ∧
    (binding? e "size").bind Value.asString? = some "large" ∧
    (binding? e "gloss").bind Value.asString? = some "high" := by
  obtain ⟨hassoc, hempty, himports⟩ := layering_laws (σ := Unit) .empty
  obtain ⟨oak, hoak⟩ : ∃ f, imported? woods (.string "oak.json") = some f :=
    Option.isSome_iff_exists.mp (by decide +kernel)
  obtain ⟨pine, hpine⟩ : ∃ f, imported? woods (.string "file:pine.json") = some f :=
    Option.isSome_iff_exists.mp (by decide +kernel)
  have hoaks : (imported? woods (.string "oak.json")).map looks =
      some (false, true, some "oak", some "large") := by decide +kernel
  have hpines : (imported? woods (.string "file:pine.json")).map looks =
      some (false, true, some "pine", some "small") := by decide +kernel
  rw [hoak, Option.map_some, Option.some.injEq] at hoaks
  rw [hpine, Option.map_some, Option.some.injEq] at hpines
  have hlayers : Layerable oak ∧ Layerable pine :=
    ⟨⟨wellFormed_imported? hoak, (plain_of_looks hoaks).2⟩,
      ⟨wellFormed_imported? hpine, (plain_of_looks hpines).2⟩⟩
  have hload : ∀ {target : Value} {f}, imported? woods target = some f →
      Yields woods .empty (some f) (loadImport (Place.root 0) target) :=
    fun h => h ▸ yields_loadImport _ _
  obtain ⟨e, he, -, hmembers, hvalues⟩ := himports woods (Place.root 0) bench _ [oak, pine]
    layerable_bench.wellFormed rfl rfl (.cons (hload hoak) (.cons (hload hpine) .nil))
    (List.forall_mem_cons.mpr ⟨(plain_of_looks hoaks).1,
      List.forall_mem_singleton.mpr (plain_of_looks hpines).1⟩)
  obtain ⟨-, hbindings⟩ := hvalues layerable_bench (List.forall_mem_cons.mpr
    ⟨hlayers.1.values, List.forall_mem_singleton.mpr hlayers.2.values⟩)
  obtain ⟨-, -, hwood, hsize⟩ : _ ∧ _ ∧ (oak.get? "wood").bind Value.asString? = some "oak" ∧
      (binding? oak "size").bind Value.asString? = some "large" := by
    simpa [looks] using hoaks
  obtain ⟨wood, hwood, hoakText⟩ := Option.bind_eq_some_iff.mp hwood
  obtain ⟨size, hsize, hsizeText⟩ := Option.bind_eq_some_iff.mp hsize
  refine ⟨oak, pine, e, hload hoak, hload hpine,
    (hassoc pine oak bench hlayers.2 hlayers.1 layerable_bench).2, (hempty bench layerable_bench).1,
    he, ?_, ?_, ?_, ?_⟩
  · have hown : (bench.erase Reserved.import_).get? "wood" = none := rfl
    rw [hmembers "wood" (by decide), hown, Option.none_or, List.findSome?_cons, hwood]
    exact hoakText
  · rw [hmembers "seat" (by decide)]
    rfl
  · have hown : binding? bench "size" = none := rfl
    rw [hbindings, hown, Option.none_or, List.findSome?_cons, hsize]
    exact hsizeText
  · rw [hbindings]
    rfl

end Compile

end ResourceTree
