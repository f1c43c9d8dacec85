import ResourceTree.Example.Item
import ResourceTree.Proofs.Cache.Chains
import ResourceTree.Proofs.Cache.Conversion
import ResourceTree.Proofs.Value.Mirror

/-!
# Live trees — making a value live keeps its shape

Where no dictionary has a text as its type, making a value live opens what is packed and puts the
handles of the cache in the place of other handles of the same names. It fails where a node lies too
deep or cannot be opened, and changes nothing else.

* `Conversion.Yields`: what a conversion asks for and comes to; `yields_mapM`, **`yields_toLive`**;
* `Cache.Named`, `Cache.Given`: the handles of a cache; **`perform_of_yields`**, `perform_steady`;
* `Cache.Lives`, `lives_of_settles`: a value that was made live, and is once more;
* **`System.Reachable.toLive_iff`**: what is made live, in every state, and when.
-/

namespace ResourceTree

/-! ## Conversions -/

namespace Conversion

open Value

variable {σ α β : Type} {asks : String → Prop} {given : String → Handle → Prop}
  {post other : Except Failure α → Prop} {post' : Except Failure β → Prop} {x : Conversion σ α}
  {f : α → Conversion σ β}

/-- **What a conversion comes to**: it asks for handles of some names only and makes no object, and
its outcome is as `post` says, whatever handles it is given. -/
def Yields (asks : String → Prop) (given : String → Handle → Prop)
    (post : Except Failure α → Prop) : Conversion σ α → Prop
  | done a => post (.ok a)
  | failed failure => post (.error failure)
  | handle name next => asks name ∧ ∀ h, given name h → Yields asks given post (next h)
  | object _ _ => False

theorem Yields.mono (h : x.Yields asks given post)
    (himp : ∀ outcome, post outcome → other outcome) : x.Yields asks given other := by
  induction x with
  | done a => exact himp _ h
  | failed failure => exact himp _ h
  | handle name next ih => exact ⟨h.1, fun g hg => ih g (h.2 g hg)⟩
  | object => exact h

theorem Yields.bind (h : x.Yields asks given post)
    (hdone : ∀ a, post (.ok a) → (f a).Yields asks given post')
    (hfailed : ∀ failure, post (.error failure) → post' (.error failure)) :
    (x >>= f).Yields asks given post' := by
  induction x with
  | done a => exact hdone a h
  | failed failure => exact hfailed failure h
  | handle name next ih => exact ⟨h.1, fun g hg => ih g (h.2 g hg)⟩
  | object => exact h.elim

/-! ### Values in turn -/

/-- A value was made live, or it is blocked. -/
def Settles (given : String → Handle → Prop) (levels : Nat) (v : Value) :
    Except Failure Value → Prop
  | .ok w => ¬ v.Blocked levels ∧ v.Mirrors given w ∧ w.WellFormed
  | .error failure => v.Blocked levels ∧ ∃ e, failure = .error e

/-- Values were made live in turn, or one of them is blocked. -/
def SettlesAll (given : String → Handle → Prop) (levels : Nat) (vs : List Value) :
    Except Failure (List Value) → Prop
  | .ok ws => (∀ v ∈ vs, ¬ v.Blocked levels) ∧
      List.Forall₂ (fun v w => v.Mirrors given w ∧ w.WellFormed) vs ws
  | .error failure => (∃ v ∈ vs, v.Blocked levels) ∧ ∃ e, failure = .error e

variable {child : Value → Conversion σ Value} {levels : Nat} {vs ws : List Value} {d : Dict Value}

theorem yields_mapM
    (h : ∀ v ∈ vs, (child v).Yields asks given (Settles given levels v)) :
    (vs.mapM child).Yields asks given (SettlesAll given levels vs) := by
  induction vs with
  | nil => exact ⟨nofun, .nil⟩
  | cons v rest ih =>
    obtain ⟨hv, hrest⟩ := List.forall_mem_cons.mp h
    rw [List.mapM_cons]
    refine hv.bind (fun w hw => (ih hrest).bind (fun ws hws => ?_) fun failure hfailure => ?_)
      fun failure hfailure => ?_
    · exact ⟨List.forall_mem_cons.mpr ⟨hw.1, hws.1⟩, .cons hw.2 hws.2⟩
    · obtain ⟨u, hu, hblocked⟩ := hfailure.1
      exact ⟨⟨u, List.mem_cons_of_mem _ hu, hblocked⟩, hfailure.2⟩
    · exact ⟨⟨v, List.mem_cons_self, hfailure.1⟩, hfailure.2⟩

/-- Members are made live as a list is, and set under their names. -/
theorem liveMembers_eq (entries : List (String × Value)) (acc : Dict Value) :
    liveMembers child acc entries = (entries.map Prod.snd).mapM child >>= fun ws =>
      done (acc.extend ((Dict.names entries).zip ws)) := by
  induction entries generalizing acc with
  | nil => rfl
  | cons entry rest ih =>
    rw [liveMembers_cons, List.map_cons, List.mapM_cons]
    simp only [ih, bind_assoc, pure_bind]
    rfl

variable [ObjectClass σ] {registry : Registry σ}

theorem yields_dictToLive (hd : (Value.dict d).WellFormed) (huntyped : (Value.dict d).Untyped)
    (hchild : ∀ entry ∈ d.entries, (child entry.2).Yields asks given
      (Settles given levels entry.2)) :
    (dictToLive registry child d).Yields asks given (Settles given (levels + 1) (.dict d)) := by
  have hmembers : ∀ v ∈ d.entries.map Prod.snd, (child v).Yields asks given
      (Settles given levels v) := fun v hv => by
    obtain ⟨entry, hentry, rfl⟩ := List.mem_map.mp hv
    exact hchild entry hentry
  rw [dictToLive_eq, liveMembers_eq, bind_assoc]
  refine (yields_mapM hmembers).bind (fun ws hws => ?_) fun failure hfailure => ?_
  · obtain ⟨hfree, hrelated⟩ := hws
    obtain ⟨hmirrors, hwf⟩ := mirrors_members hd hrelated
    show Yields _ _ _ (dictOrObject registry (Dict.ofValues _)
      (((Dict.ofValues _).get? Reserved.type).bind Value.asString?))
    rw [hmirrors.untyped huntyped]
    refine ⟨fun hblocked => ?_, hmirrors, hwf⟩
    obtain ⟨entry, hentry, hblocked⟩ := blocked_dict.mp hblocked
    exact hfree _ (List.mem_map_of_mem hentry) hblocked
  · obtain ⟨⟨v, hv, hblocked⟩, herror⟩ := hfailure
    obtain ⟨entry, hentry, rfl⟩ := List.mem_map.mp hv
    exact ⟨blocked_dict.mpr ⟨entry, hentry, hblocked⟩, herror⟩

theorem settles_opened {payload : Packed} (hunpack : payload.unpack = .ok d)
    {outcome : Except Failure Value} (h : Settles given levels (.dict d) outcome) :
    Settles given levels (.packed payload) outcome := by
  cases outcome with
  | ok w =>
    obtain ⟨hfree, hmirrors, hwf⟩ := h
    exact ⟨fun hblocked => hfree ((blocked_opened hunpack).mp hblocked), .opened hunpack hmirrors,
      hwf⟩
  | error failure => exact ⟨(blocked_opened hunpack).mpr h.1, h.2⟩

/-- **Making a value live** asks for the names of the handles that it comes to, and gives a value
that mirrors it unless it is blocked. -/
theorem yields_toLive {v : Value} (hwf : v.WellFormed) (huntyped : v.Untyped)
    (hasks : ∀ n h, v.Reaches n (.resource h) → asks h.name) (levels : Nat) :
    (toLive registry levels v).Yields asks given (Settles given levels v) := by
  induction levels generalizing v with
  | zero => exact ⟨blocked_zero, _, rfl⟩
  | succ levels ih =>
    have hdict : ∀ d n, v.Reaches n (.dict d) → (Value.dict d).WellFormed →
        (dictToLive registry (toLive registry levels) d).Yields asks given
          (Settles given (levels + 1) (.dict d)) := by
      intro d n hd hwf
      refine yields_dictToLive hwf (huntyped.of_reaches hd) fun entry hentry => ?_
      have hmember := hd.trans (.member hentry .here)
      exact ih (hwf.member hentry) (huntyped.of_reaches hmember) fun m h hx =>
        hasks _ h (hmember.trans hx)
    cases v with
    | packed payload =>
      cases hunpack : payload.unpack with
      | error fault =>
        rw [toLive, hunpack]
        exact ⟨blocked_sealed hunpack, _, rfl⟩
      | ok d =>
        rw [toLive, hunpack]
        have hopened := hdict d 0 (.opened hunpack .here) (Packed.wellFormed_of_unpack hunpack)
        exact hopened.mono fun outcome => settles_opened hunpack
    | dict d => exact hdict d 0 .here hwf
    | list items =>
      have hitems := yields_mapM fun item hitem => ih (hwf.item hitem)
        (huntyped.of_reaches (.item hitem .here)) fun n h hx => hasks (n + 1) h (.item hitem hx)
      rw [toLive]
      refine hitems.bind (fun ws hws => ?_) fun failure hfailure => ?_
      · refine ⟨fun hblocked => ?_, mirrors_items hws.2⟩
        obtain ⟨item, hitem, hblocked⟩ := blocked_list.mp hblocked
        exact hws.1 item hitem hblocked
      · exact ⟨blocked_list.mpr hfailure.1, hfailure.2⟩
    | resource h =>
      refine ⟨hasks 0 h .here, fun g hg => ⟨not_blocked_resource, .resource hg, ?_⟩⟩
      rintro d ⟨⟩
    | _ => exact ⟨not_blocked_still trivial, .still trivial, hwf⟩

end Conversion

/-! ## The handles of a cache -/

namespace Cache

variable {σ α : Type} {t t' : Turn σ} {name n : String} {g h : Handle} {asks : String → Prop}
  {post : Except Failure α → Prop} {x : Conversion σ α}

/-- The handles of entries carry the names of their entries. -/
def Named (c : Cache σ) : Prop := ∀ name h, c.endOf name = some h → h.name = name

/-- The handle that a cache has for a name, which is in use. -/
def Given (t : Turn σ) (name : String) (h : Handle) : Prop :=
  t.cache.endOf name = some h ∧ (t.store.handles.slot? h).isSome ∧ h.name = name

theorem Named.of_endOf {c c' : Cache σ} {x : Option Handle} (hnamed : c.Named)
    (hend : ∀ n, c'.endOf n = if n = name then x else c.endOf n)
    (hx : ∀ h, x = some h → h.name = name) : c'.Named := by
  intro n h hh
  rw [hend] at hh
  split_ifs at hh with hn
  · rw [hn, hx h hh]
  · exact hnamed n h hh

theorem named_of_empty {c : Cache σ} (hempty : c.entries = ∅) : c.Named := fun n h hh => by
  rw [endOf_of_empty hempty] at hh
  cases hh

theorem Named.waits {e e' : Entry} {old : Option Handle} {started : Option LoadTask}
    (hnamed : t.cache.Named) (hw : Waits t t' name e h old e' started) : t'.cache.Named :=
  hnamed.of_endOf hw.endOf_eq fun g hg => by rw [← Option.some.inj hg, hw.named]

theorem Named.gives (hnamed : t.cache.Named) (hg : Gives name t h t') : t'.cache.Named := by
  cases hg with
  | again => exact hnamed
  | waits t' e h e' started _ _ hw => exact hnamed.waits hw

theorem Named.restarts (hnamed : t.cache.Named) (hwell : t.cache.entries.WellFormed)
    (hr : Restarts name t t') : t'.cache.Named := by
  cases hr with
  | absent => exact hnamed
  | unused => exact hnamed.of_endOf (endOf_of_get? (x := none) fun n => Dict.get?_erase hwell) nofun
  | waits t' e live h e' started _ _ hw => exact hnamed.waits hw

theorem Named.completes {load : Load} {outcome : Except Failure Value} (hnamed : t.cache.Named)
    (hwell : t.cache.entries.WellFormed) (hc : Completes load outcome t t') : t'.cache.Named := by
  cases hc with
  | orphaned => exact hnamed
  | delivered e h o hs _ _ _ _ _ hname =>
    refine hnamed.of_endOf (endOf_of_get? (x := some (e.loadedAt h)) fun n => Dict.get?_insert)
      fun g hg => ?_
    rw [← Option.some.inj hg, hname]
  | dropped =>
    exact hnamed.of_endOf (endOf_of_get? (x := none) fun n => Dict.get?_erase hwell) nofun
  | abandoned =>
    exact hnamed.of_endOf (endOf_of_get? (x := none) fun n => Dict.get?_erase hwell) nofun
  | again t' e e' started hentry _ _ _ he =>
    refine hnamed.of_endOf (endOf_of_get? he.get?) fun g hg => hnamed load.name g ?_
    rw [endOf, hentry, Option.bind_some, ← hg, Option.bind_some, he.entry]

theorem Named.update (hnamed : t.cache.Named) (hwell : t.cache.entries.WellFormed)
    (name : String) (value : Value) : ((update name value).run t).2.cache.Named := by
  rcases run_update name value t with ⟨-, hsame⟩ | ⟨-, hrestarts⟩
  · rwa [hsame]
  · exact Named.restarts (t := serving t name value) hnamed hwell hrestarts

theorem given_gives (hnamed : t.cache.Named) (hg : Gives name t h t') :
    Given t' name h ∧ ∀ n g, Given t n g → Given t' n g := by
  cases hg with
  | again e h hentry hhandle hthere =>
    have hend : t.cache.endOf name = some h := by rw [endOf, hentry, Option.bind_some, hhandle]
    exact ⟨⟨hend, hthere, hnamed name h hend⟩, fun _ _ hgiven => hgiven⟩
  | waits t' e h e' started hentry hdead hw =>
    subst hentry
    have hend := hw.endOf_eq
    refine ⟨⟨by rw [hend, if_pos rfl], hw.adds.isSome_self, hw.named⟩, ?_⟩
    rintro n g ⟨hg, hthere, hname⟩
    have hn : n ≠ name := by
      rintro rfl
      rw [dead_of_getD hdead g hg] at hthere
      cases hthere
    exact ⟨by rw [hend, if_neg hn, hg],
      (hw.adds.isSome_iff (hw.adds.slot_ne hthere)).mpr hthere, hname⟩

theorem gives_of_given (hgiven : Given t name g) (hg : Gives name t h t') : h = g ∧ t' = t := by
  obtain ⟨hend, hthere, -⟩ := hgiven
  cases hg with
  | again e h hentry hhandle _ =>
    rw [endOf, hentry, Option.bind_some, hhandle] at hend
    exact ⟨Option.some.inj hend, rfl⟩
  | waits t' e h e' started hentry hdead _ =>
    subst hentry
    rw [dead_of_getD hdead g hend] at hthere
    cases hthere

variable [ObjectClass σ]

theorem given_perform (x : Conversion σ α) (hnamed : t.cache.Named) (hgiven : Given t n g) :
    Given ((perform x).run t).2 n g := by
  induction x generalizing t with
  | done a => exact hgiven
  | failed failure => exact hgiven
  | handle name next ih =>
    have hgives := run_getResource name t
    exact ih _ (hnamed.gives hgives) ((given_gives hnamed hgives).2 n g hgiven)
  | object item next ih => exact ih ((keepObject item).run t).1 hnamed hgiven

/-- **What a conversion comes to, it comes to in one go**: all handles that it was given are still
those of their names in the end. -/
theorem perform_of_yields (hnamed : t.cache.Named)
    (hx : x.Yields asks (Given ((perform x).run t).2) post) : post ((perform x).run t).1 := by
  induction x generalizing t with
  | done a => exact hx
  | failed failure => exact hx
  | handle name next ih =>
    have hgives := run_getResource name t
    have hnamed' := hnamed.gives hgives
    exact ih _ hnamed' (hx.2 _ (given_perform (next _) hnamed' (given_gives hnamed hgives).1))
  | object => exact hx.elim

/-- A conversion that asks only for handles that are in use changes nothing. -/
theorem perform_steady (hx : x.Yields asks (Given t) post)
    (hasks : ∀ name, asks name → ∃ g, Given t name g) :
    ((perform x).run t).2 = t ∧ post ((perform x).run t).1 := by
  induction x with
  | done a => exact ⟨rfl, hx⟩
  | failed failure => exact ⟨rfl, hx⟩
  | handle name next ih =>
    obtain ⟨g, hgiven⟩ := hasks name hx.1
    obtain ⟨hanswer, hsame⟩ := gives_of_given hgiven (run_getResource name t)
    have hrun : (perform (.handle name next)).run t = (perform (next g)).run t := by
      show (perform (next ((getResource name).run t).1)).run ((getResource name).run t).2 = _
      rw [hanswer, hsame]
    rw [hrun]
    exact ih g (hx.2 g hgiven)
  | object => exact hx.elim

/-! ### Made live -/

open Conversion

/-- **A value was made live**, by the time of a turn. -/
structure Lives (registry : Registry σ) (t : Turn σ) (v live : Value) : Prop where
  /-- Nothing is packed in it. -/
  opened : ∀ payload, ¬ (Value.packed payload).Within live
  /-- It has the shape of the value; its handles are those that the cache has for their names, and
  all else is as it was. -/
  mirrors : v.Mirrors (Given t) live
  /-- Making it live once more changes nothing, and gives an equal value. -/
  again : ∃ live', (perform (toLive registry (depthLimit + 1) live)).run t = (.ok live', t) ∧
    (live' == live) = true

theorem lives_of_settles {registry : Registry σ} {v live : Value} (hv : v.Untyped)
    (h : Settles (Given t) (depthLimit + 1) v (.ok live)) : Lives registry t v live := by
  obtain ⟨hfree, hmirrors, hwf⟩ := h
  have hback : ∀ n x, live.Reaches n x → ∃ y, v.Reaches n y ∧ y.Mirrors (Given t) x :=
    fun n x hx => hmirrors.exists_reaches hwf hx
  have hopened : ∀ n payload, ¬ live.Reaches n (.packed payload) := fun n payload hx =>
    have ⟨_, _, hx⟩ := hback n _ hx
    hx.not_packed
  have huntyped : live.Untyped := fun n d hd =>
    have ⟨_, hy, hd⟩ := hback n _ hd
    hd.untyped (hv.of_reaches hy)
  have hlive : ¬ live.Blocked (depthLimit + 1) := by
    rintro ⟨n, x, hx, hdeep | ⟨payload, fault, rfl, -⟩⟩
    · obtain ⟨y, hy, -⟩ := hback n x hx
      exact hfree ⟨n, y, hy, .inl hdeep⟩
    · exact hopened n payload hx
  have hasks : ∀ n (h : Handle), live.Reaches n (.resource h) → ∃ g, Given t h.name g := by
    intro n h hx
    obtain ⟨y, -, hy⟩ := hback n _ hx
    obtain ⟨o, rfl, hgiven⟩ := hy.exists_handle
    exact ⟨h, hgiven.2.2 ▸ hgiven⟩
  have hyields : (toLive registry (depthLimit + 1) live).Yields (fun name => ∃ g, Given t name g)
      (Given t) (Settles (Given t) (depthLimit + 1) live) := yields_toLive hwf huntyped hasks _
  obtain ⟨hsame, hsettles⟩ := perform_steady hyields fun _ hgiven => hgiven
  refine ⟨fun payload hin => ?_, hmirrors, ?_⟩
  · obtain ⟨n, hn⟩ := Value.exists_reaches_of_within hin
    exact hopened n payload hn
  · cases hrun : ((perform (toLive registry (depthLimit + 1) live)).run t).1 with
    | error failure =>
      rw [hrun] at hsettles
      exact absurd hsettles.1 hlive
    | ok live' =>
      rw [hrun] at hsettles
      exact ⟨live', Prod.ext hrun hsame,
        hsettles.2.1.beq (fun _ _ hgiven => hgiven.2.2) hwf hsettles.2.2 hopened⟩

end Cache

/-! ## Live trees in every state -/

namespace System

open Conversion

variable {σ : Type} [ObjectClass σ] {s s' : System σ} {v : Value}

theorem named_step (ho : s.Orderly) (hnamed : s.cache.Named) (hstep : Step s s') :
    s'.cache.Named := by
  have hwell := ho.tidy.wellFormed
  cases hstep with
  | getResource name =>
    have hgives := Cache.run_getResource name s.turn
    exact Cache.Named.gives hnamed hgives
  | invalidate name =>
    have hrestarts := Cache.run_invalidate name s.turn
    exact Cache.Named.restarts hnamed hwell hrestarts
  | setResources d =>
    exact (Cache.setResources_induction
      (P := fun t => Cache.Orderly t s.tickets s.epoch 0 ∧ t.cache.Named)
      (fun _ n v hu => ⟨Cache.orderly_update hu.1 n v, hu.2.update hu.1.tidy.wellFormed n v⟩) d
      ⟨ho, hnamed⟩).2
  | clear =>
    obtain ⟨hs, signals, -, hrun⟩ := Cache.run_clear s.turn
    have hempty : (Cache.clear.run s.turn).2.cache.entries = ∅ := by rw [hrun]
    have hcleared := Cache.named_of_empty hempty
    exact hcleared
  | request before after f name next hf _ =>
    have hgives := Cache.run_getResource name s.turn
    exact Cache.Named.gives hnamed hgives
  | complete before after f rest outcome hf _ _ =>
    have hcompleted := Cache.Named.completes (t := s.turn) hnamed hwell
      (Cache.run_completeLoad f.load outcome s.turn)
    exact hcompleted
  | _ => exact hnamed

theorem Reachable.named (hs : Reachable s) : s.cache.Named := by
  induction hs with
  | start id registry => exact Cache.named_of_empty rfl
  | step hs hstep ih => exact named_step hs.orderly ih hstep

/-- What making a value live does in one go, from the present state on. -/
def live (s : System σ) (v : Value) : Except Failure Value × Turn σ :=
  (Cache.perform (toLive s.cache.registry (depthLimit + 1) v)).run s.turn

/-- **Making a value live keeps its shape**, in every state: where no dictionary in it has a text as
its type, it fails exactly when some node lies too deep or cannot be opened, and gives the live form
of the value otherwise. -/
theorem Reachable.toLive_iff (hs : s.Reachable) (hwf : v.WellFormed) (huntyped : v.Untyped) :
    ((∃ e, (s.live v).1 = .error (.error e)) ↔
        ∃ n x, v.Reaches n x ∧ (depthLimit < n ∨ x.Sealed)) ∧
      ((¬ ∃ n x, v.Reaches n x ∧ (depthLimit < n ∨ x.Sealed)) →
        ∃ live, (s.live v).1 = .ok live ∧
          Cache.Lives s.cache.registry (s.live v).2 v live) := by
  have hyields : (toLive s.cache.registry (depthLimit + 1) v).Yields (fun _ => True)
      (Cache.Given (s.live v).2) (Settles (Cache.Given (s.live v).2) (depthLimit + 1) v) :=
    yields_toLive hwf huntyped (fun _ _ _ => trivial) _
  have hsettles : Settles (Cache.Given (s.live v).2) (depthLimit + 1) v (s.live v).1 :=
    Cache.perform_of_yields (t := s.turn) hs.named hyields
  cases hrun : (s.live v).1 with
  | error failure =>
    rw [hrun] at hsettles
    obtain ⟨hblocked, e, rfl⟩ := hsettles
    exact ⟨iff_of_true ⟨e, rfl⟩ hblocked, fun hfree => absurd hblocked hfree⟩
  | ok live =>
    rw [hrun] at hsettles
    have hlives : Cache.Lives s.cache.registry _ v live := Cache.lives_of_settles huntyped hsettles
    exact ⟨iff_of_false nofun hsettles.1, fun _ => ⟨live, rfl, hlives⟩⟩

/-- A dictionary with one flag, and its octets in packed form. -/
def flagged : Dict Value := Dict.ofValues [("a", .bool true)]

def flagPacked : Packed := ⟨Lz4.compress [1, 0, 0, 0, 1, 0, 0, 0, 97, 1, 1]⟩

/-- The packed dictionary and a handle, in a list in a dictionary. -/
def nested : Value :=
  .dict (Dict.ofValues [("n", .list [.packed flagPacked, .resource ⟨"b", none⟩])])

theorem unpack_flagPacked : flagPacked.unpack = .ok flagged := rfl

theorem reaches_nested {n : Nat} {x : Value} (h : nested.Reaches n x) :
    n ≤ 3 ∧ ¬ x.Sealed ∧ (x = nested ∨ x = .dict flagged ∨ ∀ d, x ≠ .dict d) := by
  cases h with
  | here => exact ⟨by decide, nofun, .inl rfl⟩
  | member hentry h =>
    cases List.mem_singleton.mp hentry
    cases h with
    | here => exact ⟨by decide, nofun, .inr (.inr nofun)⟩
    | item hitem h =>
      rcases List.mem_pair.mp hitem with rfl | rfl
      · cases h with
        | here =>
          refine ⟨by decide, ?_, .inr (.inr nofun)⟩
          rintro ⟨payload, fault, ⟨⟩, hfault⟩
          cases unpack_flagPacked.symm.trans hfault
        | opened hunpack h =>
          obtain rfl := Except.ok.inj (unpack_flagPacked.symm.trans hunpack)
          cases h with
          | here => exact ⟨by decide, nofun, .inr (.inl rfl)⟩
          | member hentry h =>
            cases List.mem_singleton.mp hentry
            cases h
            exact ⟨by decide, nofun, .inr (.inr nofun)⟩
      · cases h
        exact ⟨by decide, nofun, .inr (.inr nofun)⟩

theorem toLive_iff_nested : nested.WellFormed ∧ nested.Untyped ∧ ∃ live,
    ((start 0 (.empty : Registry Item)).live nested).1 = .ok live ∧
      Cache.Lives .empty ((start 0 (.empty : Registry Item)).live nested).2 nested live := by
  have hwf : nested.WellFormed :=
    Value.wellFormed_ofValues (List.forall_mem_singleton.mpr
      (Value.wellFormed_list fun item hitem => by
        rcases List.mem_pair.mp hitem with rfl | rfl <;> rintro d ⟨⟩))
  have huntyped : nested.Untyped := fun n d hd => by
    obtain ⟨-, -, hnested | hflagged | hnone⟩ := reaches_nested hd
    · cases hnested
      rfl
    · cases hflagged
      rfl
    · exact absurd rfl (hnone d)
  refine ⟨hwf, huntyped, ((Reachable.start 0 .empty).toLive_iff hwf huntyped).2 ?_⟩
  rintro ⟨n, x, hx, hdeep | hsealed⟩
  · have hle := (reaches_nested hx).1
    have hlimit : depthLimit = 256 := rfl
    omega
  · exact (reaches_nested hx).2.1 hsealed

end System

end ResourceTree
