import Mathlib.Data.Finset.Card
import Mathlib.Logic.Relation
import Mathlib.Order.WellFounded
import ResourceTree.Proofs.Compile.Tame

/-!
# Encodable outputs — no live object is left by a compile

Where no callback panics and the saved forms of objects nest finitely, a compile gives an output
without live objects, which has an encoded form as soon as all lengths fit. Whatever stands in the
place of an object is its saved form, packed in turn, with the name of its type.

* `Store.SavedInside`, `Store.SavesFinitely`: objects inside what other ones are saved as;
  `Store.SavesQuietly`: objects that do not panic when they are saved;
* **`Packs`**: a value in which objects are packed; `Packs.lifeless`, `Packs.withoutFlags`;
* `Below`, `Below.card_lt`: the objects that are being saved differ, so a level is left;
* **`safe_run_saved`**: the walk that saves a tree;
* `Compiler.Compiles`, **`Compiler.Compiles.encodable`**: compiles.
-/

namespace ResourceTree

open ResourceTree.Action

/-! ## Objects inside others -/

section Stores

variable {σ : Type} [ObjectClass σ]

/-- An object is inside what another one is saved as. Objects are known by their numbers. -/
def Store.SavedInside (s : Store σ) (inner outer : Nat) : Prop :=
  ∃ object d ref, (s.objects[outer]?).join = some object ∧
    ObjectClass.saveToCache object = .ok d ∧ (Value.object ref).Within (.dict d) ∧ ref.id = inner

/-- Saved forms nest finitely. -/
def Store.SavesFinitely (s : Store σ) : Prop := WellFounded s.SavedInside

/-- No object panics when it is saved. -/
def Store.SavesQuietly (s : Store σ) : Prop :=
  ∀ ref object panic, s.object? ref = some object →
    ObjectClass.saveToCache object ≠ .error (.panic panic)

variable {s : Store σ}

theorem Store.savesFinitely_of_lifeless (h : ∀ (id : Nat) object d,
      (s.objects[id]?).join = some object → ObjectClass.saveToCache object = .ok d →
      (Value.dict d).Lifeless) : s.SavesFinitely := by
  refine ⟨fun outer => ⟨outer, ?_⟩⟩
  rintro inner ⟨object, d, ref, hfound, hsaves, href, -⟩
  exact absurd href (h outer object d hfound hsaves ref)

omit [ObjectClass σ] in
theorem Store.of_all {check : Option σ → Bool} (h : s.objects.all check = true) {id : Nat}
    {object : σ} (hfound : (s.objects[id]?).join = some object) : check (some object) = true := by
  have hslot : s.objects[id]? = some (some object) := Option.join_eq_some_iff.mp hfound
  obtain ⟨hlt, hobject⟩ := Array.getElem?_eq_some_iff.mp hslot
  exact hobject ▸ Array.all_eq_true.mp h id hlt

end Stores

/-- The store is as it was, and some diagnostics are recorded. -/
structure Progress.Stays {σ : Type} (s : Store σ) (told : List Diagnostic) (p : Progress σ) :
    Prop where
  store : p.store = s
  errors : ∀ e ∈ told, e ∈ p.errors

namespace Compile

variable {σ : Type} [ObjectClass σ] {s : Store σ} {v w : Value} {d out : Dict Value}

/-! ## Packed trees -/

/-- **A value in which the objects of a store are packed.** Entries and items may be missing; an
object is packed from what it is saved as, with its type name. -/
inductive Packs (s : Store σ) : Value → Value → Prop where
  | leaf {v : Value} (h : v.IsLeaf) : Packs s v v
  | dict {d out : Dict Value} (source : String × Value → Value)
      (named : ∀ entry ∈ out.entries, (entry.1, source entry) ∈ d.entries)
      (packed : ∀ entry ∈ out.entries, Packs s (source entry) entry.2) :
      Packs s (.dict d) (.dict out)
  | list {items : List Value} (pairs : List (Value × Value))
      (kept : (pairs.map Prod.fst).Sublist items)
      (packed : ∀ pair ∈ pairs, Packs s pair.1 pair.2) :
      Packs s (.list items) (.list (pairs.map Prod.snd))
  | object {ref : ObjectRef} {object : σ} {d out : Dict Value} {payload : Packed}
      (found : s.object? ref = some object) (saves : ObjectClass.saveToCache object = .ok d)
      (members : Packs s (.dict d) (.dict out))
      (packed : Packed.ofDict (out.set Reserved.type (.string ref.typeName)) = .ok payload) :
      Packs s (.object ref) (.packed payload)

theorem packs_dict (h : ∀ entry ∈ out.entries, ∃ v, (entry.1, v) ∈ d.entries ∧ Packs s v entry.2) :
    Packs s (.dict d) (.dict out) := by
  choose! source hsource using h
  exact .dict source (fun entry hentry => (hsource entry hentry).1)
    fun entry hentry => (hsource entry hentry).2

theorem Packs.lifeless (h : Packs s v w) : w.Lifeless := by
  induction h with
  | @leaf v h =>
    intro ref href
    cases href <;> exact h
  | dict source named packed ih => exact Value.lifeless_dict.mpr ih
  | list pairs kept packed ih =>
    refine Value.lifeless_list.mpr fun item hitem => ?_
    obtain ⟨pair, hpair, rfl⟩ := List.mem_map.mp hitem
    exact ih pair hpair
  | object found saves members packed ih =>
    rintro ref ⟨⟩

theorem Packs.withoutFlags (h : Packs s v w) : Packs s v (Compile.withoutFlags w) := by
  induction h with
  | @leaf v h =>
    have hsame : Compile.withoutFlags v = v := by
      cases v with
      | dict | list | object => exact h.elim
      | _ => rfl
    rw [hsame]
    exact .leaf h
  | @dict d out source named packed ih =>
    rw [withoutFlags_dict]
    refine packs_dict fun member hmember => ?_
    have hmember := Dict.subperm_ofValues.subset hmember
    rw [membersWithoutFlags_eq] at hmember
    obtain ⟨entry, hentry, rfl⟩ := List.mem_map.mp hmember
    have hentry := List.mem_of_mem_filter hentry
    exact ⟨source entry, named entry hentry, ih entry hentry⟩
  | list pairs kept packed ih =>
    have hpairs : (pairs.map Prod.snd).map Compile.withoutFlags =
        (pairs.map (Prod.map id Compile.withoutFlags)).map Prod.snd := by
      rw [List.map_map, List.map_map]
      rfl
    rw [Compile.withoutFlags, itemsWithoutFlags_eq, hpairs]
    refine .list _ ?_ fun pair hpair => ?_
    · rw [List.map_map]
      exact kept
    · obtain ⟨pair, hin, rfl⟩ := List.mem_map.mp hpair
      exact ih pair hin
  | object found saves members packed => exact .object found saves members packed

/-- What the visit of a value gives: the value with its objects packed, or nothing. -/
def PackedAs (s : Store σ) (v : Value) (result : Option Value) : Prop := ∀ w ∈ result, Packs s v w

theorem packedAs_none : PackedAs s v none := nofun

theorem packedAs_some (h : Packs s v w) : PackedAs s v (some w) := fun _ hw =>
  Option.some.inj hw ▸ h

theorem packs_of_collects (h : Place.Collects (fun entry => PackedAs s entry.2) ∅
    (Dict.inKeyOrder d.entries) out) : Packs s (.dict d) (.dict out) := by
  obtain ⟨visited, hnames, hresults, rfl⟩ := h
  refine packs_dict fun entry hentry => ?_
  obtain ⟨member, hmember, hname, hresult⟩ := Place.mem_of_mem_collect hentry
  have hin : member.1 ∈ Dict.inKeyOrder d.entries := hnames ▸ List.mem_map_of_mem hmember
  exact ⟨member.1.2, hname ▸ Dict.inKeyOrder_subset hin, hresults member hmember _ hresult⟩

/-- The items of a list that were not dropped, each with what it is packed as. -/
def keptItems (visited : List ((Value × Nat) × Option Value)) : List (Value × Value) :=
  visited.filterMap fun element => element.2.map (element.1.1, ·)

theorem keptItems_snd (visited : List ((Value × Nat) × Option Value)) :
    (keptItems visited).map Prod.snd = visited.filterMap Prod.snd := by
  rw [keptItems, List.map_filterMap]
  refine List.filterMap_congr fun element _ => ?_
  rw [Option.map_map]
  exact Option.map_id' ..

theorem keptItems_fst_sublist (visited : List ((Value × Nat) × Option Value)) :
    ((keptItems visited).map Prod.fst).Sublist ((visited.map Prod.fst).map Prod.fst) := by
  induction visited with
  | nil => exact List.Sublist.refl _
  | cons element rest ih =>
    obtain ⟨⟨item, index⟩, result⟩ := element
    cases result with
    | none => exact ih.cons item
    | some w => exact ih.cons_cons item

theorem packs_of_lists {items results : List Value} {index : Nat}
    (h : Place.Lists (fun element => PackedAs s element.1) (items.zipIdx index) results) :
    Packs s (.list items) (.list results) := by
  obtain ⟨visited, helements, hresults, rfl⟩ := h
  have hkept := keptItems_fst_sublist visited
  rw [helements, List.zipIdx_map_fst] at hkept
  rw [← keptItems_snd]
  refine .list (keptItems visited) hkept fun pair hpair => ?_
  obtain ⟨element, helement, heq⟩ := List.mem_filterMap.mp hpair
  obtain ⟨w, hw, rfl⟩ := Option.map_eq_some_iff.mp heq
  exact hresults element helement w hw

/-! ## Levels -/

/-- The objects in a value are inside what some other objects are saved as, or inside objects that
are. -/
def Below (s : Store σ) (seen : Finset Nat) (v : Value) : Prop :=
  ∀ ref, (Value.object ref).Within v → ∀ outer ∈ seen, Relation.TransGen s.SavedInside ref.id outer

theorem below_empty (v : Value) : Below s ∅ v := fun _ _ outer houter =>
  absurd houter (Finset.notMem_empty outer)

variable {seen : Finset Nat} {ref : ObjectRef} {object : σ}

theorem Below.of_within (h : Below s seen v)
    (hw : ∀ ref, (Value.object ref).Within w → (Value.object ref).Within v) : Below s seen w :=
  fun ref href => h ref (hw ref href)

theorem Below.saved (h : Below s seen (.object ref)) (hfound : s.object? ref = some object)
    (hsaves : ObjectClass.saveToCache object = .ok d) :
    Below s (insert ref.id seen) (.dict d) := by
  intro inner hinner outer houter
  have hstep : s.SavedInside inner.id ref.id := ⟨object, d, inner, hfound, hsaves, hinner, rfl⟩
  rcases Finset.mem_insert.mp houter with rfl | houter
  · exact .single hstep
  · exact .head hstep (h ref .self outer houter)

theorem notMem_of_below (hnests : s.SavesFinitely) (h : Below s seen (.object ref)) :
    ref.id ∉ seen := fun hseen =>
  hnests.transGen.irrefl.irrefl ref.id (h ref .self ref.id hseen)

/-- An object that is there is one more than those it is inside of. -/
theorem card_insert_le (hnests : s.SavesFinitely) (h : Below s seen (.object ref))
    (hfound : s.object? ref = some object) (hseen : seen ⊆ Finset.range s.objects.size) :
    insert ref.id seen ⊆ Finset.range s.objects.size ∧
      (insert ref.id seen).card = seen.card + 1 := by
  refine ⟨Finset.insert_subset ?_ hseen, Finset.card_insert_of_notMem (notMem_of_below hnests h)⟩
  rw [Finset.mem_range]
  by_contra hout
  rw [Store.object?, Array.getElem?_eq_none (by omega)] at hfound
  cases hfound

/-! ## The walk -/

section Walk

variable {told : List Diagnostic} {breaks : Prop} {setting : Setting σ}
  {again : Value → Visit σ}

omit [ObjectClass σ] in
theorem steady_stays : Progress.Steady (Progress.Stays s told) := by
  intro p note h
  cases note with
  | diagnostic d => exact ⟨h.store, fun e he => Array.mem_push_of_mem d (h.errors e he)⟩
  | file | worker => exact ⟨h.store, h.errors⟩

theorem descends_saved : (saved : Rewrite σ).Descends fun _ out => pure (some (.dict out)) where
  onDict _ _ := rfl
  onItems _ _ := rfl

/-- A visit that leaves the store alone, and packs the objects of a value unless it may break
off. -/
def PacksEach (s : Store σ) (told : List Diagnostic) (breaks : Prop) (setting : Setting σ)
    (visit : Value → Visit σ) (v : Value) : Prop :=
  ∀ place, Safe (Progress.Stays s told) breaks setting (PackedAs s v) (visit v place)

theorem safe_packSaved (place : Place) (hfound : s.object? ref = some object)
    (hsaves : ObjectClass.saveToCache object = .ok d) (out : Dict Value) :
    Safe (Progress.Stays s told) breaks setting (fun result =>
      Packs s (.dict d) (.dict out) → PackedAs s (.object ref) result)
      (packSaved place ref out) := by
  unfold packSaved
  split
  · next payload hpacked =>
    exact safe_pure fun hmembers => packedAs_some (.object hfound hsaves hmembers hpacked)
  · exact safe_addError_pure steady_stays place _ _ fun _ => packedAs_none

/-- **An object is packed** if the members of what it is saved as are visited one level deeper. -/
theorem safe_visitOther_object (hsave : ∀ object panic, s.object? ref = some object →
      ObjectClass.saveToCache object = .error (.panic panic) → breaks)
    (hagain : ∀ object d, s.object? ref = some object → ObjectClass.saveToCache object = .ok d →
      ∀ entry ∈ d.entries, PacksEach s told breaks setting again entry.2) (place : Place) :
    Safe (Progress.Stays s told) breaks setting (PackedAs s (.object ref))
      (saved.visitOther again (.object ref) none place) := by
  show Safe _ _ _ _ (saveObject place ref >>= _)
  rw [saveObject, bind_assoc]
  refine safe_store_bind ?_
  rintro p ⟨rfl, -⟩
  cases hfound : p.store.object? ref with
  | none => exact safe_pure packedAs_none
  | some object =>
    dsimp only
    cases hsaves : ObjectClass.saveToCache object with
    | ok members =>
      show Safe _ _ _ _ (saved.runMembers place.deeper (members.entries.map (Prod.map id again)) >>=
        packSaved place ref)
      refine Safe.bind ((safe _ steady_stays _).says_runMembers_zero
        fun entry hentry worker =>
          hagain object members hfound hsaves entry hentry _) fun out => ?_
      exact (safe_packSaved place hfound hsaves out).mono fun _ h hout => h (packs_of_collects hout)
    | error failure =>
      cases failure with
      | error e => exact safe_addError_pure steady_stays place _ _ packedAs_none
      | panic panic => exact safe_crash (hsave object panic hfound hsaves) place.deeper panic

theorem packsEach_visitUsing (hsave : ∀ ref object panic, s.object? ref = some object →
      ObjectClass.saveToCache object = .error (.panic panic) → breaks)
    (hbelow : Below s seen v)
    (hagain : ∀ ref object d, Below s seen (.object ref) → s.object? ref = some object →
      ObjectClass.saveToCache object = .ok d → ∀ entry ∈ d.entries,
        PacksEach s told breaks setting again entry.2) :
    PacksEach s told breaks setting (saved.visitUsing again) v := by
  refine (safe _ steady_stays _).says_visitUsing (Below s seen) (PackedAs s)
    descends_saved (fun d hd entry hentry => ?_) (fun items hitems item hitem => ?_)
    (fun place d out _ => safe_pure fun hout => packedAs_some (packs_of_collects hout))
    (fun items out _ hout => packedAs_some (packs_of_lists hout)) (fun v place hv hdict hlist => ?_)
    v hbelow
  · exact hd.of_within fun ref href => .member hentry href
  · exact hitems.of_within fun ref href => .item hitem href
  · cases v with
    | dict d => exact absurd rfl (hdict d)
    | list items => exact absurd rfl (hlist items)
    | object ref =>
      exact safe_visitOther_object (hsave ref) (fun object d => hagain ref object d hv) place
    | _ => exact safe_pure (packedAs_some (.leaf trivial))

/-- **As many levels as there are objects that are not being saved are enough** to pack every
object, if saved forms nest finitely. -/
theorem packsEach_visitWithin (hsave : ∀ ref object panic, s.object? ref = some object →
      ObjectClass.saveToCache object = .error (.panic panic) → breaks) (levels : Nat) (v : Value)
    (hlevels : breaks ∨ s.SavesFinitely ∧ seen ⊆ Finset.range s.objects.size ∧
      s.objects.size ≤ seen.card + levels)
    (hbelow : Below s seen v) : PacksEach s told breaks setting (saved.visitWithin levels) v := by
  induction levels generalizing seen v with
  | zero =>
    refine packsEach_visitUsing hsave hbelow fun ref object d hbelow hfound _ entry _ place => ?_
    rcases hlevels with hbreaks | ⟨hnests, hseen, hlevels⟩
    · exact safe_crash hbreaks place _
    · -- no object is left that is not being saved
      obtain ⟨hsub, hcard⟩ := card_insert_le hnests hbelow hfound hseen
      have hle := Finset.card_le_card hsub
      rw [Finset.card_range] at hle
      omega
  | succ levels ih =>
    refine packsEach_visitUsing hsave hbelow
      fun ref object d hbelow hfound hsaves entry hentry => ?_
    rcases hlevels with hbreaks | ⟨hnests, hseen, hlevels⟩
    · exact ih entry.2 (.inl hbreaks) (below_empty entry.2)
    · obtain ⟨hsub, hcard⟩ := card_insert_le hnests hbelow hfound hseen
      refine ih entry.2 (.inr ⟨hnests, hsub, by omega⟩) ?_
      exact (hbelow.saved hfound hsaves).of_within fun inner hinner => .member hentry hinner

/-- **The walk that saves a tree** leaves the store alone. If no object panics when it is saved, and
saved forms nest finitely, it does not break off and packs the objects of the tree. -/
theorem safe_run_saved (d : Dict Value) :
    Safe (Progress.Stays s told) (¬ (s.SavesQuietly ∧ s.SavesFinitely)) setting
      (fun out => Packs s (.dict d) (.dict out)) (saved.run s.objects.size d) := by
  have hsave : ∀ ref object panic, s.object? ref = some object →
      ObjectClass.saveToCache object = .error (.panic panic) →
        ¬ (s.SavesQuietly ∧ s.SavesFinitely) :=
    fun ref object panic hfound hsaves hquiet => hquiet.1 ref object panic hfound hsaves
  have hlevels : ¬ (s.SavesQuietly ∧ s.SavesFinitely) ∨ s.SavesFinitely ∧
      ∅ ⊆ Finset.range s.objects.size ∧
      s.objects.size ≤ (∅ : Finset Nat).card + s.objects.size := by
    rcases Classical.em s.SavesFinitely with hnests | hendless
    · exact .inr ⟨hnests, Finset.empty_subset _, by simp⟩
    · exact .inl fun hsaves => hendless hsaves.2
  refine Safe.mono ((safe _ steady_stays _).says_run (PackedAs s) id descends_saved
    (fun _ _ => rfl) fun entry _ place =>
      packsEach_visitWithin hsave _ entry.2 hlevels (below_empty entry.2) place) ?_
  rintro _ ⟨members, hmembers, rfl⟩
  exact packs_of_collects hmembers

end Walk

/-! ## Outputs -/

theorem Packs.stripFlags (h : Packs s (.dict d) (.dict out)) (hs : Handles) :
    Packs s (.dict d) (.dict (Compile.stripFlags hs out).1) := by
  have hstrip := h.withoutFlags
  rwa [withoutFlags_dict] at hstrip

omit [ObjectClass σ] in
theorem lifeless_outputOf {tree : Dict Value × Bool} {p : Progress σ}
    (h : (Value.dict (Compile.stripFlags p.store.handles tree.1).1).Lifeless) :
    (Value.dict (outputOf tree p).dict).Lifeless := by
  refine Value.lifeless_set (wellFormed_stripFlags _ _).root h (Value.lifeless_list.mpr ?_)
  intro item hitem
  obtain ⟨path, -, rfl⟩ := List.mem_map.mp hitem
  rintro ref ⟨⟩

end Compile

/-! ## Compiles -/

namespace Compiler

variable {φ σ : Type} [FileSystem φ] [ObjectClass σ] {c : Compiler φ σ} {s : Store σ}
  {compiled : Compiled φ σ} {good : σ → Prop}

/-- A compile of a dictionary, of a text or of a file. -/
inductive Compiles (c : Compiler φ σ) (s : Store σ) : Compiled φ σ → Prop where
  | dict (d : Dict Value) (dir : Path) : Compiles c s (c.compileDict s d dir)
  | text (text : String) (dir : Path) : Compiles c s (c.compileText s text dir)
  | file (path : Path) : Compiles c s (c.compileFile s path)

theorem Compiles.read_or_failed (h : c.Compiles s compiled) :
    (∃ dir source d, compiled = c.compileWith s dir source d) ∨
      ∃ e, compiled = c.unchanged s (.failed e) := by
  cases h with
  | dict d dir => exact .inl ⟨dir, none, d, rfl⟩
  | text text dir =>
    unfold compileText
    split
    · exact .inl ⟨dir, none, _, rfl⟩
    · exact .inr ⟨_, rfl⟩
  | file path =>
    unfold compileFile
    split
    · exact .inr ⟨_, rfl⟩
    · split
      · exact .inr ⟨_, rfl⟩
      · exact .inl ⟨_, _, _, rfl⟩

/-- **An output that has an encoded form.** -/
structure Encodable (c : Compiler φ σ) (s : Store σ) (compiled : Compiled φ σ) (o : Output) :
    Prop where
  /-- There is no live object in it. -/
  lifeless : (Value.dict o.dict).Lifeless
  /-- It is encoded if all its lengths fit. -/
  encodes : (Value.dict o.dict).spelling.Fits → ∃ bytes, o.dict.encode = .ok bytes
  /-- It is the tree of the compile as it was before it was saved, with its objects packed, and the
  list of files; or the source could not be read. -/
  packs : (∃ dir source d tree asked p packed, compiled = c.compileWith s dir source d ∧
      (Compile.unsaved dir d).run (c.settingIn dir)
        { Progress.initial s with files := source.toList } = (.ok (tree, asked), p) ∧
      Compile.Packs p.store (.dict tree) (.dict packed) ∧
      o.dict = packed.set Reserved.files (.list (o.files.map fun path => .string path.text))) ∨
    ∃ e, compiled = c.unchanged s (.failed e)

theorem encodable_failed (e : Diagnostic) :
    Encodable c s (c.unchanged s (.failed e)) (.failed e) where
  lifeless := Value.lifeless_dict.mpr nofun
  encodes hfits := by
    have hwf : (Value.dict ∅).WellFormed :=
      Value.wellFormed_dict Dict.wellFormed_empty Dict.nullFree_empty nofun
    exact ⟨_, (Dict.encode_eq_ok_iff hwf).mpr ⟨⟨Value.lifeless_dict.mpr nofun, hfits⟩, rfl⟩⟩
  packs := .inr ⟨e, rfl⟩

variable {dir : Path} {source : Option Path} {d tree : Dict Value} {asked : Bool} {p : Progress σ}

theorem compileWith_eq_saved : c.compileWith s dir source d =
    match (Compile.unsaved dir d).run (c.settingIn dir)
      { Progress.initial s with files := source.toList } with
    | (.error crash, p) => ⟨.error crash.panic, p.store, c.files⟩
    | (.ok (tree, asked), p) =>
      match (Compile.saved.run p.store.objects.size tree).run (c.settingIn dir) p with
      | (.error crash, q) => ⟨.error crash.panic, q.store, c.files⟩
      | (.ok packed, q) =>
        ⟨.ok (Compile.outputOf (packed, asked) q, q.finished.toList), q.store, c.files⟩ := by
  rw [compileWith_eq, Compile.built_eq_unsaved, run_bind]
  rcases (Compile.unsaved dir d).run _ _ with ⟨crash | ⟨tree, asked⟩, p⟩
  · rfl
  · dsimp only
    rw [run_bind, run_store]
    dsimp only
    rw [run_bind]
    rcases (Compile.saved.run p.store.objects.size tree).run _ p with ⟨crash | packed, q⟩ <;> rfl

theorem store_compileWith_of_unsaved (hunsaved : (Compile.unsaved dir d).run (c.settingIn dir)
      { Progress.initial s with files := source.toList } = (.ok (tree, asked), p)) :
    (c.compileWith s dir source d).store = p.store := by
  rw [compileWith_eq_saved, hunsaved]
  dsimp only
  cases hrun : (Compile.saved.run p.store.objects.size tree).run (c.settingIn dir) p with
  | mk r q =>
    have hp : Progress.Stays p.store [] p := ⟨rfl, nofun⟩
    rw [← (Compile.safe_run_saved tree p r q hp hrun).1.store]
    cases r <;> rfl

/-- **A compile whose steps before the last one end**: its tree is packed, if no object that is
there panics when it is saved, and the saved forms nest finitely. -/
theorem compileWith_of_unsaved (hunsaved : (Compile.unsaved dir d).run (c.settingIn dir)
      { Progress.initial s with files := source.toList } = (.ok (tree, asked), p))
    (hsaves : p.store.SavesQuietly) (hnests : p.store.SavesFinitely) :
    ∃ packed q, Compile.Packs p.store (.dict tree) (.dict packed) ∧
      Progress.Stays p.store p.errors.toList q ∧ c.compileWith s dir source d =
        ⟨.ok (Compile.outputOf (packed, asked) q, q.finished.toList), q.store, c.files⟩ := by
  have hsaved : Safe (Progress.Stays p.store p.errors.toList) _ (c.settingIn dir) _ _ :=
    Compile.safe_run_saved tree
  obtain ⟨packed, q, hrun, hq, hpacks⟩ := hsaved.exists_ok (not_not_intro ⟨hsaves, hnests⟩)
    ⟨rfl, fun _ he => Array.mem_toList_iff.mp he⟩
  refine ⟨packed, q, hpacks, hq, ?_⟩
  rw [compileWith_eq_saved, hunsaved]
  dsimp only
  rw [hrun]

/-- **A compile without panics** whose objects are saved in forms that nest finitely. -/
theorem compileWith_encodable (hclass : ObjectClass.Tame good False)
    (hregistry : c.registry.Offers good) (hstore : ∀ ref object, s.object? ref = some object →
      good object) (dir : Path) (source : Option Path) (d : Dict Value)
    (hnests : (c.compileWith s dir source d).store.SavesFinitely) :
    ∃ o finished, (c.compileWith s dir source d).outcome = .ok (o, finished) ∧
      Encodable c s (c.compileWith s dir source d) o := by
  have hsound : Progress.Sound good [] { Progress.initial s with files := source.toList } :=
    ⟨hstore, nofun⟩
  have hoffers : (c.settingIn dir).registry.Offers good := hregistry
  obtain ⟨⟨tree, asked⟩, p, hunsaved, hp, -⟩ :=
    (Compile.safe_unsaved Progress.lasting_sound hclass hoffers dir d).exists_ok id hsound
  rw [store_compileWith_of_unsaved hunsaved] at hnests
  obtain ⟨packed, q, hpacks, -, hcompiled⟩ := compileWith_of_unsaved hunsaved
    (fun ref object panic hfound => hclass.save object panic (hp.objects ref object hfound)) hnests
  have hstrip := hpacks.stripFlags q.store.handles
  have hlifeless : (Value.dict (Compile.outputOf (packed, asked) q).dict).Lifeless :=
    Compile.lifeless_outputOf hstrip.lifeless
  refine ⟨Compile.outputOf (packed, asked) q, q.finished.toList, by rw [hcompiled],
    hlifeless, fun hfits => ?_, ?_⟩
  · have hwf := Compile.wellFormed_outputOf (packed, asked) q
    exact ⟨_, (Dict.encode_eq_ok_iff hwf).mpr ⟨⟨hlifeless, hfits⟩, rfl⟩⟩
  · refine .inl ⟨dir, source, d, tree, asked, p, _, rfl, hunsaved, hstrip, ?_⟩
    rw [Compile.files_outputOf]
    rfl

/-- **What a compile gives has an encoded form**, with all objects packed, whatever the source, the
files and the objects in the source are: if no callback panics and the saved forms of the objects
that are there in the end nest finitely. -/
theorem Compiles.encodable (h : c.Compiles s compiled) (hclass : ObjectClass.Tame good False)
    (hregistry : c.registry.Offers good) (hstore : ∀ ref object, s.object? ref = some object →
      good object) (hnests : compiled.store.SavesFinitely) :
    ∃ o finished, compiled.outcome = .ok (o, finished) ∧ Encodable c s compiled o := by
  rcases h.read_or_failed with ⟨dir, source, d, rfl⟩ | ⟨e, rfl⟩
  · exact compileWith_encodable hclass hregistry hstore dir source d hnests
  · exact ⟨.failed e, [], rfl, encodable_failed e⟩

/-! ### Two probes -/

/-- A compiler that knows probes only. -/
def probing : Compiler MemoryFiles Item :=
  ⟨Config.initial ⟨"/cache"⟩, Registry.empty.register Probe.typeName (.probe .fresh), .empty⟩

/-- A source with a probe that is there and one that is to be made. -/
def probes : Dict Value := Dict.ofValues
  [("fresh", .dict (Dict.ofValues [(Reserved.type, .string Probe.typeName), ("x", .bool true)])),
    ("live", .object ⟨0, Probe.typeName⟩)]

/-- Neither a dictionary nor a list nor an object. -/
def isPlain : Value → Bool
  | .dict _ | .list _ | .object _ => false
  | _ => true

theorem lifeless_of_plain {d : Dict Value}
    (h : d.entries.all (fun entry => isPlain entry.2) = true) : (Value.dict d).Lifeless := by
  refine Value.lifeless_dict.mpr fun entry hentry ref href => ?_
  have hplain := List.all_eq_true.mp h entry hentry
  unfold isPlain at hplain
  split at hplain
  · cases hplain
  · cases hplain
  · cases hplain
  · next hdict hlist hobject => exact hobject ref (Value.within_leaf hdict hlist href).symm

/-- A probe without dictionaries, lists and objects. -/
def isPlainProbe : Option Item → Bool
  | some (.probe p) => p.source.entries.all fun entry => isPlain entry.2
  | _ => false

theorem lifeless_plainProbe {item : Item} {d : Dict Value} (h : isPlainProbe (some item) = true)
    (hsaves : ObjectClass.saveToCache item = .ok d) : (Value.dict d).Lifeless := by
  cases item with
  | probe p =>
    obtain rfl : p.save = d := Except.ok.inj hsaves
    have hsaved : p.save.entries = [("source", .dict p.source)] := rfl
    refine Value.lifeless_dict.mpr fun entry hentry => ?_
    rw [hsaved, List.mem_singleton] at hentry
    exact hentry ▸ lifeless_of_plain h
  | _ => cases h

theorem savesFinitely_of_plain {s : Store Item} (h : s.objects.all isPlainProbe = true) :
    s.SavesFinitely :=
  Store.savesFinitely_of_lifeless fun _ _ _ hfound hsaves =>
    lifeless_plainProbe (Store.of_all h hfound) hsaves

theorem tame_probe : ObjectClass.Tame (fun item => ∃ p, item = Item.probe p) False where
  load := by
    rintro _ d ⟨p, rfl⟩
    exact ⟨⟨d⟩, rfl⟩
  finish := by
    rintro s _ ⟨p, rfl⟩
    refine ⟨?_, nofun⟩
    rintro _ ⟨⟩
    exact ⟨p, rfl⟩
  siblings := by
    rintro _ ref panic ⟨p, rfl⟩
    exact nofun
  save := by
    rintro _ panic ⟨p, rfl⟩
    exact nofun

/-- Both probes are packed, and what the compile gives has an encoded form. -/
theorem encodable_probes : ∃ o finished,
    (probing.compileDict Compile.probed probes ⟨"/"⟩).outcome = .ok (o, finished) ∧
    Encodable probing Compile.probed (probing.compileDict Compile.probed probes ⟨"/"⟩) o := by
  have hregistry : probing.registry.Offers fun item => ∃ p, item = Item.probe p := by
    intro name item hitem
    rw [Registry.create?, probing, Registry.register, Dict.get?_insert] at hitem
    split at hitem
    · exact ⟨.fresh, (Option.some.inj hitem).symm⟩
    · cases hitem
  have hstore : ∀ ref item, Compile.probed.object? ref = some item → ∃ p, item = .probe p :=
    fun ref item hfound => ⟨.fresh, Compile.object_probed hfound⟩
  have hnests : (probing.compileDict Compile.probed probes ⟨"/"⟩).store.SavesFinitely :=
    savesFinitely_of_plain (by decide +kernel)
  exact (Compiles.dict probes ⟨"/"⟩).encodable tame_probe hregistry hstore hnests

end Compiler

end ResourceTree
