import ResourceTree.Cache.Load
import ResourceTree.Proofs.Dict.Entries

/-!
# Conversions — what a conversion can end in

A conversion is a program that asks and is answered. What it can end in, whatever it is answered,
can be told from the conversion alone; what follows it matters for these outcomes only.

* `Conversion.All`, **`All.bind_congr`**: what every outcome of a conversion is like;
* `liveMembers`, `dictOrObject`: the two parts of making a dictionary live;
* `Returns`: conversions that ask for nothing;
* **`all_toLive`**: making a value live gives a text for a text only.
-/

namespace ResourceTree

namespace Conversion

variable {σ α β : Type} {x : Conversion σ α} {post : α → Prop} {f g : α → Conversion σ β}

/-- Every outcome of the conversion, whatever it is answered, is as `post` says. -/
def All (post : α → Prop) : Conversion σ α → Prop
  | done a => post a
  | failed _ => True
  | handle _ next => ∀ answer, All post (next answer)
  | object _ next => ∀ answer, All post (next answer)

theorem all_true (x : Conversion σ α) : x.All fun _ => True := by
  induction x with
  | done a => trivial
  | failed failure => trivial
  | handle name next ih => exact ih
  | object item next ih => exact ih

theorem All.mono {other : α → Prop} (h : x.All post) (himp : ∀ a, post a → other a) :
    x.All other := by
  induction x with
  | done a => exact himp a h
  | failed failure => trivial
  | handle name next ih => exact fun answer => ih answer (h answer)
  | object item next ih => exact fun answer => ih answer (h answer)

theorem All.bind {post' : β → Prop} (h : x.All post) (hf : ∀ a, post a → (f a).All post') :
    (x >>= f).All post' := by
  induction x with
  | done a => exact hf a h
  | failed failure => trivial
  | handle name next ih => exact fun answer => ih answer (h answer)
  | object item next ih => exact fun answer => ih answer (h answer)

/-- **What follows a conversion matters for its outcomes only.** -/
theorem All.bind_congr (h : x.All post) (hf : ∀ a, post a → f a = g a) : x >>= f = x >>= g := by
  induction x with
  | done a => exact hf a h
  | failed failure => rfl
  | handle name next ih => exact congrArg (handle name) (funext fun answer => ih answer (h answer))
  | object item next ih => exact congrArg (object item) (funext fun answer => ih answer (h answer))

theorem bind_assoc_eq {γ : Type} (x : Conversion σ α) (f : α → Conversion σ β)
    (k : β → Conversion σ γ) : x >>= f >>= k = x >>= fun a => f a >>= k := by
  induction x with
  | done a => rfl
  | failed failure => rfl
  | handle name next ih => exact congrArg (handle name) (funext ih)
  | object item next ih => exact congrArg (object item) (funext ih)

theorem bind_done (x : Conversion σ α) : x >>= done = x := by
  induction x with
  | done a => rfl
  | failed failure => rfl
  | handle name next ih => exact congrArg (handle name) (funext ih)
  | object item next ih => exact congrArg (object item) (funext ih)

instance : LawfulMonad (Conversion σ) :=
  LawfulMonad.mk' _ (fun x => bind_done x) (fun _ _ => rfl) bind_assoc_eq

/-- The members of a dictionary made live in turn. -/
def liveMembers (child : Value → Conversion σ Value) (acc : Dict Value)
    (entries : List (String × Value)) : Conversion σ (Dict Value) :=
  entries.foldlM (fun out entry => do return out.set entry.1 (← child entry.2)) acc

variable {child other : Value → Conversion σ Value} {acc : Dict Value}

theorem liveMembers_cons (entry : String × Value) (rest : List (String × Value)) :
    liveMembers child acc (entry :: rest) =
      child entry.2 >>= fun v => liveMembers child (acc.set entry.1 v) rest := by
  simp only [liveMembers, List.foldlM_cons, bind_assoc, pure_bind]

variable {γ : Type} {m m' : γ → Value}

theorem liveMembers_congr {members : List (String × γ)}
    (h : ∀ member ∈ members, child (m member.2) = other (m' member.2)) :
    liveMembers child acc (members.map (Prod.map id m)) =
      liveMembers other acc (members.map (Prod.map id m')) := by
  induction members generalizing acc with
  | nil => rfl
  | cons member rest ih =>
    obtain ⟨hmember, hrest⟩ := List.forall_mem_cons.mp h
    rw [List.map_cons, List.map_cons, liveMembers_cons, liveMembers_cons]
    show child (m member.2) >>= _ = other (m' member.2) >>= _
    rw [hmember]
    exact congrArg _ (funext fun v => ih hrest)

theorem mapM_congr {items : List γ} (h : ∀ item ∈ items, child (m item) = other (m' item)) :
    (items.map m).mapM child = (items.map m').mapM other := by
  induction items with
  | nil => rfl
  | cons item rest ih =>
    obtain ⟨hitem, hrest⟩ := List.forall_mem_cons.mp h
    rw [List.map_cons, List.map_cons, List.mapM_cons, List.mapM_cons, hitem, ih hrest]

/-- What is live has a text under a name only where there was one. -/
theorem all_liveMembers (hchild : ∀ v, (child v).All fun w => w.asString? = v.asString?)
    {entries : List (String × Value)} (hnodup : (Dict.names entries).Nodup) (hacc : acc.WellFormed)
    (name : String) : (liveMembers child acc entries).All fun live =>
      (live.get? name).bind Value.asString? =
        ((entries.lookup name).or (acc.get? name)).bind Value.asString? := by
  induction entries generalizing acc with
  | nil => exact rfl
  | cons entry rest ih =>
    obtain ⟨hfree, hrest⟩ := List.nodup_cons.mp hnodup
    rw [liveMembers_cons]
    refine (hchild entry.2).bind fun v hv => (ih hrest (Dict.wellFormed_set hacc)).mono ?_
    intro live hlive
    rw [hlive, Dict.lookup_cons_entry]
    by_cases hname : name = entry.1
    · subst hname
      rw [Dict.lookup_eq_none_iff_names.mpr hfree, if_pos rfl, Option.none_or, Option.some_or,
        Option.bind_some, ← hv]
      by_cases hnull : v = .null
      · subst hnull
        show ((acc.erase entry.1).get? entry.1).bind _ = _
        rw [Dict.get?_erase hacc, if_pos rfl]
        rfl
      · rw [Dict.set_of_ne_null hnull, Dict.get?_insert_self, Option.bind_some]
    · rw [if_neg hname, Dict.get?_set_of_ne hacc hname]

/-- The type that live members show is the one that the members had. -/
theorem all_typeOf (hchild : ∀ v, (child v).All fun w => w.asString? = v.asString?)
    {entries : List (String × Value)} (hsorted : (Dict.names entries).Pairwise (· < ·)) :
    (liveMembers child ∅ entries).All fun live =>
      (live.get? Reserved.type).bind Value.asString? =
        (entries.lookup Reserved.type).bind Value.asString? := by
  refine (all_liveMembers hchild (hsorted.imp fun hlt => ne_of_lt hlt)
    Dict.wellFormed_empty Reserved.type).mono fun live hlive => ?_
  rw [hlive, Dict.get?_empty, Option.or_none]

/-! ### Conversions without requests -/

variable {deep : Prop}

/-- A conversion that asks for nothing and gives a value, or fails where something is too deep. -/
def Returns (deep : Prop) (x : Conversion σ α) (a : α) : Prop :=
  x = .done a ∨ deep ∧ x = .failed (.error tooDeep)

theorem Returns.mono {a : α} {deeper : Prop} (h : Returns deep x a) (himp : deep → deeper) :
    Returns deeper x a :=
  h.imp_right fun hdeep => ⟨himp hdeep.1, hdeep.2⟩

theorem Returns.bind {a : α} {b : β}
    (hx : Returns deep x a) (hf : Returns deep (f a) b) : Returns deep (x >>= f) b := by
  rcases hx with rfl | ⟨hdeep, rfl⟩
  · exact hf
  · exact .inr ⟨hdeep, rfl⟩

theorem returns_liveMembers {g : Value → Value}
    {entries : List (String × Value)} (acc : Dict Value)
    (h : ∀ entry ∈ entries, Returns deep (child entry.2) (g entry.2)) :
    Returns deep (liveMembers child acc entries) (acc.extend (entries.map (Prod.map id g))) := by
  induction entries generalizing acc with
  | nil => exact .inl rfl
  | cons entry rest ih =>
    obtain ⟨hentry, hrest⟩ := List.forall_mem_cons.mp h
    rw [liveMembers_cons]
    exact hentry.bind (ih _ hrest)

theorem returns_mapM {g : Value → Value} {items : List Value}
    (h : ∀ item ∈ items, Returns deep (child item) (g item)) :
    Returns deep (items.mapM child) (items.map g) := by
  induction items with
  | nil => exact .inl rfl
  | cons item rest ih =>
    obtain ⟨hitem, hrest⟩ := List.forall_mem_cons.mp h
    rw [List.mapM_cons]
    exact hitem.bind ((ih hrest).bind (.inl rfl))

/-! ### Making values live -/

variable [ObjectClass σ] {registry : Registry σ}

theorem all_objectToLive (typeName : String) (live : Dict Value) :
    (objectToLive registry typeName live).All fun w => w.asString? = none := by
  unfold objectToLive
  split
  · trivial
  · split
    · trivial
    · exact fun ref => rfl

/-- A live dictionary stays what it is, unless it has a text as its type. -/
def dictOrObject (registry : Registry σ) (live : Dict Value) : Option String → Conversion σ Value
  | none => return .dict live
  | some typeName => objectToLive registry typeName live

theorem dictToLive_eq (d : Dict Value) : dictToLive registry child d =
    liveMembers child ∅ d.entries >>= fun live =>
      dictOrObject registry live ((live.get? Reserved.type).bind Value.asString?) := by
  unfold dictToLive
  refine congrArg _ (funext fun live => ?_)
  cases (live.get? Reserved.type).bind Value.asString? <;> rfl

theorem all_dictOrObject (live : Dict Value) (typeName? : Option String) :
    (dictOrObject registry live typeName?).All fun w => w.asString? = none := by
  cases typeName? with
  | none => exact rfl
  | some typeName => exact all_objectToLive typeName live

theorem all_dictToLive (d : Dict Value) :
    (dictToLive registry child d).All fun w => w.asString? = none := by
  rw [dictToLive_eq]
  exact (all_true _).bind fun live _ => all_dictOrObject live _

/-- **Making a value live gives a text for a text** and for nothing else. -/
theorem all_toLive (levels : Nat) (v : Value) :
    (toLive registry levels v).All fun w => w.asString? = v.asString? := by
  cases levels with
  | zero => trivial
  | succ levels =>
    unfold toLive
    split
    · split
      · trivial
      · exact all_dictToLive _
    · exact all_dictToLive _
    · exact (all_true _).bind fun items _ => rfl
    · exact fun answer => rfl
    · exact rfl

end Conversion

end ResourceTree
