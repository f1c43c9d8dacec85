import ResourceTree.Proofs.Cache.Chains

/-!
# Nobody waits in vain

Who flushes a handle waits while the cache is loading its slot, on the signal of the entry of its
name. Entries are replaced and forgotten in many places: when a load completes, when it was
overtaken, when a name nobody uses is invalidated, and when the cache is cleared. In each of them
the cache gives up the slot and sets the signal.

* `Handles.Owned`: slots that a cache is loading; `owned_redirected`, `owned_released`: how they are
  given up;
* `owned_getResource`, `owned_invalidate`, `owned_completeLoad`, `owned_clear`: which slots a step
  leaves to the cache;
* `Watched`: every such slot is that of an entry whose load has not completed;
* `Accounted`: a signal is still that of an entry, or it was set;
* **`Reachable.no_waiter_left`**: in every state, whoever waits is woken in the end by a load in
  flight.
-/

namespace ResourceTree

/-! ## Slots that a cache is loading -/

namespace Handles

variable {hs : Handles} {id : Nat} {name : String} {value : Value} {g h newer : Handle}

/-- A cache is loading the slot of a handle: it owns the slot, and nothing replaces it. -/
structure Owned (hs : Handles) (id : Nat) (g : Handle) : Prop where
  owner : hs.owner? g = some id
  last : hs.replacement? g = none

theorem Owned.isSome (ho : hs.Owned id g) : (hs.slot? g).isSome := by
  have howner := ho.owner
  rw [owner?, Option.bind_eq_some_iff] at howner
  obtain ⟨slot, hslot, -⟩ := howner
  exact Option.isSome_iff_exists.mpr ⟨slot, hslot⟩

theorem Owned.congr {hs' : Handles} (hslot : hs'.slot? h = hs.slot? g) (ho : hs'.Owned id h) :
    hs.Owned id g := by
  obtain ⟨howner, hlast⟩ := ho
  rw [owner?, hslot] at howner
  rw [replacement?, hslot] at hlast
  exact ⟨howner, hlast⟩

theorem owned_new (ho : (hs.new name value).2.Owned id g) : hs.Owned id g := by
  by_cases hg : g.slot = some hs.slots.size
  · have howner := ho.owner
    rw [owner?, slot?_new, if_pos hg] at howner
    cases howner
  · exact ho.congr (by rw [slot?_new, if_neg hg])

theorem owned_setOwner_none (ho : (hs.setOwner h none).Owned id g) :
    g.slot ≠ h.slot ∧ hs.Owned id g := by
  have hg : g.slot ≠ h.slot := by
    intro hg
    have howner := ho.owner
    rw [owner?, slot?_setOwner, if_pos hg] at howner
    cases hslot : hs.slot? g <;> simp [hslot] at howner
  exact ⟨hg, ho.congr (by rw [slot?_setOwner, if_neg hg])⟩

theorem owned_invalidate (ho : (hs.invalidate h newer).Owned id g) : hs.Owned id g := by
  unfold invalidate at ho
  split_ifs at ho
  · exact ho
  · by_cases hg : g.slot = h.slot
    · -- a slot that was replaced has a replacement
      have hlast := ho.last
      obtain ⟨slot, hslot⟩ := Option.isSome_iff_exists.mp ho.isSome
      rw [replacement?, hslot] at hlast
      rw [slot?_modify, if_pos hg, Option.map_eq_some_iff] at hslot
      obtain ⟨before, -, rfl⟩ := hslot
      cases hlast
    · exact ho.congr (by rw [slot?_modify, if_neg hg])

end Handles

namespace Cache

open Handles

variable {σ : Type} {t t' : Turn σ} {hs : Handles} {id : Nat} {name : String} {g newer : Handle}
  {e : Entry}

/-- Of the slots with a new one that the cache is loading, that one is owned by it besides those
before. -/
theorem owned_withPlaceholder (ho : (withPlaceholder hs name id).Owned id g) :
    g.slot = some hs.slots.size ∨ hs.Owned id g := by
  by_cases hg : g.slot = some hs.slots.size
  · exact .inl hg
  · refine .inr (ho.congr ?_)
    rw [withPlaceholder, slot?_setOwner, if_neg hg, slot?_new, if_neg hg]

theorem owned_redirected {live : Option Handle} (ho : (redirected hs newer live).Owned id g) :
    hs.Owned id g ∧ ∀ o, live = some o → o.slot ≠ g.slot := by
  cases live with
  | none => exact ⟨ho, nofun⟩
  | some old =>
    obtain ⟨hg, howned⟩ := owned_setOwner_none (owned_invalidate ho)
    refine ⟨howned, ?_⟩
    rintro _ ⟨⟩
    exact hg.symm

theorem owned_released {handle : Option Handle} (ho : (released hs id handle).Owned id g) :
    hs.Owned id g ∧ ∀ o, handle = some o → o.slot ≠ g.slot := by
  cases handle with
  | none => exact ⟨ho, nofun⟩
  | some h =>
    have howned : hs.Owned id g ∧ h.slot ≠ g.slot := by
      rw [released] at ho
      split_ifs at ho with howner
      · obtain ⟨hg, howned⟩ := owned_setOwner_none ho
        exact ⟨howned, hg.symm⟩
      · refine ⟨ho, fun hslot => howner ?_⟩
        rw [owner?, slot?_congr hslot]
        exact ho.owner
    refine ⟨howned.1, ?_⟩
    rintro _ ⟨⟩
    exact howned.2

theorem owned_releasedAll {entries : List (String × Entry)}
    (ho : (releasedAll hs id entries).Owned id g) :
    hs.Owned id g ∧ ∀ entry ∈ entries, ∀ o, entry.2.handle = some o → o.slot ≠ g.slot := by
  induction entries generalizing hs with
  | nil => exact ⟨ho, nofun⟩
  | cons entry rest ih =>
    obtain ⟨hrest, hother⟩ := ih ho
    obtain ⟨howned, hself⟩ := owned_released hrest
    exact ⟨howned, List.forall_mem_cons.mpr ⟨hself, hother⟩⟩

/-- A handle that is gone has no slot that a cache is loading. -/
theorem slot_ne_of_dead (ho : t.store.handles.Owned id g)
    (hdead : e.handle.bind t.store.upgrade? = none) (o : Handle) (hhandle : e.handle = some o) :
    o.slot ≠ g.slot := by
  intro hslot
  have hgone := bind_upgrade?_eq_none.mp hdead o hhandle
  have hthere := ho.isSome
  rw [← slot?_congr hslot, hgone] at hthere
  cases hthere

/-- The handle of an entry, if it is there, is none that was not replaced with it. -/
theorem slot_ne_of_redirected (ho : t.store.handles.Owned id g)
    (hother : ∀ o, e.handle.bind t.store.upgrade? = some o → o.slot ≠ g.slot) (o : Handle)
    (hhandle : e.handle = some o) : o.slot ≠ g.slot := by
  cases hlive : e.handle.bind t.store.upgrade? with
  | none => exact slot_ne_of_dead ho hlive o hhandle
  | some h =>
    have hsame := (bind_upgrade?_eq_some.mp hlive).1
    rw [hhandle] at hsame
    obtain rfl := Option.some.inj hsame
    exact hother o hlive

/-! ### What steps leave to the cache -/

theorem store_await (name : String) (e : Entry) (h : Handle) (t : Turn σ) :
    ((await name e h >>= spawn name).run t).2.store = t.store := by
  obtain ⟨e', started, he⟩ := enters_enter name (e.waitingAt h (t.cache.signalOf e))
    (prepared t t.store.handles e)
  rw [run_await_spawn]
  exact he.store

theorem store_retryLoad (name : String) (e : Entry) (t : Turn σ) :
    ((retryLoad name e).run t).2.store = t.store := by
  cases hlive : e.handle.bind t.store.upgrade? with
  | none =>
    simp only [retryLoad, run_bind, run_liveHandle?, hlive]
    cases e.pending <;> rfl
  | some o =>
    obtain ⟨e', started, he⟩ := enters_enter name { e with task := none } t
    simp only [retryLoad, run_bind, run_liveHandle?, hlive]
    exact he.store

theorem owned_getResource (ho : ((getResource name).run t).2.store.handles.Owned t.cache.id g) :
    g.slot = some t.store.handles.slots.size ∨ t.store.handles.Owned t.cache.id g := by
  rw [run_getResource_eq] at ho
  cases hlive : ((t.cache.entries.get? name).getD .new).handle.bind t.store.upgrade? with
  | some h =>
    rw [hlive] at ho
    exact .inr ho
  | none =>
    rw [hlive] at ho
    have hstore := store_await name ((t.cache.entries.get? name).getD .new)
      ⟨name, some t.store.handles.slots.size⟩ { t with store := { t.store with
        handles := withPlaceholder t.store.handles name t.cache.id } }
    have hafter : (((await name ((t.cache.entries.get? name).getD .new)
        ⟨name, some t.store.handles.slots.size⟩ >>= spawn name).run { t with store := { t.store with
        handles := withPlaceholder t.store.handles name t.cache.id } }).2.store.handles).Owned
          t.cache.id g := ho
    rw [hstore] at hafter
    exact owned_withPlaceholder hafter

/-- Invalidating a name gives the cache one slot to load at most, and takes away that of the handle
in use. -/
theorem owned_invalidate (ho : ((invalidate name).run t).2.store.handles.Owned t.cache.id g) :
    g.slot = some t.store.handles.slots.size ∨ t.store.handles.Owned t.cache.id g ∧
      ∀ e o, t.cache.entries.get? name = some e → e.handle = some o → o.slot ≠ g.slot := by
  rw [run_invalidate_eq] at ho
  cases hentry : t.cache.entries.get? name with
  | none =>
    rw [hentry] at ho
    exact .inr ⟨ho, nofun⟩
  | some e =>
    simp only [hentry] at ho
    split_ifs at ho with hunused
    · rw [Bool.and_eq_true, Option.isNone_iff_eq_none] at hunused
      refine .inr ⟨ho, ?_⟩
      rintro _ o ⟨⟩ hhandle
      exact slot_ne_of_dead ho hunused.1 o hhandle
    · rw [store_await] at ho
      obtain ⟨hplaced, hother⟩ := owned_redirected ho
      refine (owned_withPlaceholder hplaced).imp_right fun howned => ⟨howned, ?_⟩
      rintro _ o ⟨⟩ hhandle
      exact slot_ne_of_redirected howned hother o hhandle

/-- Completing a load gives the cache no slot to load, and takes away that of the handle whose load
has come to its end. -/
theorem owned_completeLoad {load : Load} {outcome : Except Failure Value}
    (ho : ((completeLoad load outcome).run t).2.store.handles.Owned t.cache.id g) :
    t.store.handles.Owned t.cache.id g ∧
      ∀ e o, t.cache.entries.get? load.name = some e → e.task = some load.task →
        e.generation = load.task.generation → e.handle = some o → o.slot ≠ g.slot := by
  rw [completeLoad, run_bind, run_lookup?] at ho
  cases hentry : t.cache.entries.get? load.name with
  | none =>
    rw [hentry] at ho
    refine ⟨ho, ?_⟩
    rintro e o ⟨⟩
  | some e =>
    simp only [hentry] at ho
    split_ifs at ho with htask hgen
    · rw [run_deliver_eq] at ho
      obtain ⟨hnew, hother⟩ := owned_redirected ho
      have howned := owned_new hnew
      refine ⟨howned, ?_⟩
      rintro _ o ⟨⟩ - - hhandle
      exact slot_ne_of_redirected howned hother o hhandle
    · rw [store_retryLoad] at ho
      refine ⟨ho, ?_⟩
      rintro _ o ⟨⟩ - hgen'
      exact absurd hgen' hgen
    · refine ⟨ho, ?_⟩
      rintro _ o ⟨⟩ htask'
      exact absurd htask' htask

theorem owned_clear (ho : (clear.run t).2.store.handles.Owned t.cache.id g) :
    t.store.handles.Owned t.cache.id g ∧
      ∀ entry ∈ t.cache.entries.entries, ∀ o, entry.2.handle = some o → o.slot ≠ g.slot := by
  rw [run_clear_eq] at ho
  exact owned_releasedAll ho

/-! ## Slots and entries -/

/-- Every slot that the cache is loading is that of an entry whose load has not completed. -/
def Watched (t : Turn σ) : Prop :=
  ∀ g, t.store.handles.Owned t.cache.id g → ∃ n e h, t.cache.entries.get? n = some e ∧
    e.state = .loading ∧ e.handle = some h ∧ h.slot = g.slot

/-- The entry of one name changes. The slots that the cache is loading then are that of the entry,
if it waits for its load, and those of other entries. -/
theorem Watched.change {x : Option Entry} (hw : Watched t) (hid : t'.cache.id = t.cache.id)
    (hget : ∀ n, t'.cache.entries.get? n = if n = name then x else t.cache.entries.get? n)
    (howned : ∀ g, t'.store.handles.Owned t.cache.id g →
      (∃ e h, x = some e ∧ e.state = .loading ∧ e.handle = some h ∧ h.slot = g.slot) ∨
        t.store.handles.Owned t.cache.id g ∧
          ∀ e o, t.cache.entries.get? name = some e → e.handle = some o → o.slot ≠ g.slot) :
    Watched t' := by
  intro g ho
  rw [hid] at ho
  rcases howned g ho with ⟨e, h, hx, hloading, hhandle, hslot⟩ | ⟨hbefore, hother⟩
  · exact ⟨name, e, h, by rw [hget, if_pos rfl, hx], hloading, hhandle, hslot⟩
  · obtain ⟨n, e, h, hentry, hloading, hhandle, hslot⟩ := hw g hbefore
    have hn : n ≠ name := by
      rintro rfl
      exact hother e h hentry hhandle hslot
    exact ⟨n, e, h, by rw [hget, if_neg hn, hentry], hloading, hhandle, hslot⟩

section Steps

variable {e' : Entry} {h : Handle} {old : Option Handle} {started : Option LoadTask}

theorem Enters.cacheId (he : Enters t t' name e e' started) : t'.cache.id = t.cache.id :=
  congrArg (·.cache.id) he.rest

theorem Waits.cacheId (hw : Waits t t' name e h old e' started) : t'.cache.id = t.cache.id :=
  hw.enters.cacheId

theorem Watched.waits (hwatched : Watched t) (hw : Waits t t' name e h old e' started)
    (howned : ∀ g, t'.store.handles.Owned t.cache.id g →
      g.slot = some t.store.handles.slots.size ∨ t.store.handles.Owned t.cache.id g ∧
        ∀ e o, t.cache.entries.get? name = some e → e.handle = some o → o.slot ≠ g.slot) :
    Watched t' :=
  hwatched.change hw.cacheId hw.get? fun g ho => (howned g ho).imp_left fun hslot =>
    ⟨e', h, rfl, hw.state, hw.handle, hw.adds.slot.trans hslot.symm⟩

theorem Watched.gives (hwatched : Watched t) (hg : Gives name t h t')
    (howned : ∀ g, t'.store.handles.Owned t.cache.id g →
      g.slot = some t.store.handles.slots.size ∨ t.store.handles.Owned t.cache.id g) :
    Watched t' := by
  cases hg with
  | again => exact hwatched
  | waits t' e h e' started hentry hdead hw =>
    refine hwatched.waits hw fun g ho => (howned g ho).imp_right fun hbefore => ⟨hbefore, ?_⟩
    intro d o hd hhandle
    rw [hd, Option.getD_some] at hentry
    subst hentry
    exact slot_ne_of_dead hbefore (bind_upgrade?_eq_none.mpr hdead) o hhandle

theorem Watched.restarts (hwatched : Watched t) (hwell : t.cache.entries.WellFormed)
    (hr : Restarts name t t') (howned : ∀ g, t'.store.handles.Owned t.cache.id g →
      g.slot = some t.store.handles.slots.size ∨ t.store.handles.Owned t.cache.id g ∧
        ∀ e o, t.cache.entries.get? name = some e → e.handle = some o → o.slot ≠ g.slot) :
    Watched t' := by
  cases hr with
  | absent => exact hwatched
  | unused e hentry htask hdead =>
    refine hwatched.change (x := none) rfl (fun n => Dict.get?_erase hwell) fun g ho => .inr ?_
    refine ⟨ho, fun d o hd hhandle => ?_⟩
    rw [hentry] at hd
    obtain rfl := Option.some.inj hd
    exact slot_ne_of_dead (t := t) ho (bind_upgrade?_eq_none.mpr hdead) o hhandle
  | waits t' e live h e' started hentry hlive hw => exact hwatched.waits hw howned

theorem Watched.completes {load : Load} {outcome : Except Failure Value} (hwatched : Watched t)
    (hwell : t.cache.entries.WellFormed) (hc : Completes load outcome t t')
    (howned : ∀ g, t'.store.handles.Owned t.cache.id g → t.store.handles.Owned t.cache.id g ∧
      ∀ e o, t.cache.entries.get? load.name = some e → e.task = some load.task →
        e.generation = load.task.generation → e.handle = some o → o.slot ≠ g.slot) :
    Watched t' := by
  cases hc with
  | orphaned => exact hwatched
  | delivered e h o hs hentry htask hgen hhandle hadds hname =>
    refine hwatched.change (x := some (e.loadedAt h)) rfl (fun n => Dict.get?_insert)
      fun g ho => .inr ?_
    obtain ⟨hbefore, hother⟩ := howned g ho
    refine ⟨hbefore, fun d o hd => ?_⟩
    rw [hentry] at hd
    obtain rfl := Option.some.inj hd
    exact hother e o hentry htask hgen
  | dropped e h hs hentry htask hgen hdead hadds =>
    refine hwatched.change (x := none) rfl (fun n => Dict.get?_erase hwell) fun g ho => .inr ?_
    obtain ⟨hbefore, hother⟩ := howned g ho
    refine ⟨hbefore, fun d o hd => ?_⟩
    rw [hentry] at hd
    obtain rfl := Option.some.inj hd
    exact hother e o hentry htask hgen
  | abandoned e hentry htask hgen hdead =>
    refine hwatched.change (x := none) rfl (fun n => Dict.get?_erase hwell) fun g ho => .inr ?_
    refine ⟨ho, fun d o hd hhandle => ?_⟩
    rw [hentry] at hd
    obtain rfl := Option.some.inj hd
    exact slot_ne_of_dead (t := t) ho (bind_upgrade?_eq_none.mpr hdead) o hhandle
  | again t' e e' started hentry htask hgen hthere he =>
    -- the entry goes on waiting behind the handle it had
    refine fun g ho => ?_
    rw [he.cacheId] at ho
    obtain ⟨n, d, h, hd, hloading, hhandle, hslot⟩ := hwatched g (howned g ho).1
    rcases eq_or_ne n load.name with rfl | hn
    · rw [hentry] at hd
      obtain rfl := Option.some.inj hd
      refine ⟨load.name, e', h, by rw [he.get?, if_pos rfl], ?_, ?_, hslot⟩
      · rw [he.entry]
        exact hloading
      · rw [he.entry]
        exact hhandle
    · exact ⟨n, d, h, by rw [he.get?, if_neg hn, hd], hloading, hhandle, hslot⟩

theorem Watched.clear (hwatched : Watched t) (hwell : t.cache.entries.WellFormed) :
    Watched (Cache.clear.run t).2 := by
  intro g ho
  have hid : (Cache.clear.run t).2.cache.id = t.cache.id := by rw [run_clear_eq]
  rw [hid] at ho
  obtain ⟨hbefore, hother⟩ := owned_clear ho
  obtain ⟨n, e, h, hentry, -, hhandle, hslot⟩ := hwatched g hbefore
  exact absurd hslot (hother (n, e) ((Dict.get?_eq_some_iff hwell).mp hentry) h hhandle)

theorem Watched.update (hwatched : Watched t) (hwell : t.cache.entries.WellFormed)
    (name : String) (value : Value) : Watched ((Cache.update name value).run t).2 := by
  rcases run_update name value t with ⟨-, hsame⟩ | ⟨hserves, hrestarts⟩
  · rw [hsame]
    exact hwatched
  · refine Watched.restarts (t := serving t name value) hwatched hwell hrestarts fun g ho => ?_
    rw [Cache.update, run_bind, run_setResource, if_neg hserves] at ho
    exact owned_invalidate (t := serving t name value) ho

/-! ## Signals -/

variable {c c' : Cache σ} {i : Nat}

/-- A signal that some entry waits on, or that was set. -/
def Accounted (c : Cache σ) (i : Nat) : Prop :=
  (∃ n e, c.entries.get? n = some e ∧ e.pending = some i) ∨ c.signals[i]? = some ⟨true⟩

theorem getElem?_signalled_of_set {signals : Array Signal} (pending : Option Nat)
    (hset : signals[i]? = some ⟨true⟩) : (signalled signals pending)[i]? = some ⟨true⟩ := by
  by_cases hp : pending = some i
  · subst hp
    rw [signalled, Array.getElem?_modify, if_pos rfl, hset]
    rfl
  · rw [getElem?_signalled hp, hset]

theorem getElem?_signalled_self {signals : Array Signal} {signal : Signal}
    (hthere : signals[i]? = some signal) : (signalled signals (some i))[i]? = some ⟨true⟩ := by
  rw [signalled, Array.getElem?_modify, if_pos rfl, hthere]
  rfl

theorem getElem?_signalledAll {signals : Array Signal} {signal : Signal}
    {entries : List (String × Entry)} (hthere : signals[i]? = some signal)
    (hsome : signal = ⟨true⟩ ∨ ∃ entry ∈ entries, entry.2.pending = some i) :
    (signalledAll signals entries)[i]? = some ⟨true⟩ := by
  induction entries generalizing signals signal with
  | nil =>
    rcases hsome with rfl | ⟨entry, hentry, -⟩
    · exact hthere
    · cases hentry
  | cons entry rest ih =>
    by_cases hp : entry.2.pending = some i
    · have hset : (signalled signals entry.2.pending)[i]? = some ⟨true⟩ := by
        rw [hp]
        exact getElem?_signalled_self hthere
      exact ih hset (.inl rfl)
    · have hsame : (signalled signals entry.2.pending)[i]? = some signal := by
        rw [getElem?_signalled hp, hthere]
      refine ih hsame (hsome.imp_right fun ⟨other, hother, hpending⟩ => ⟨other, ?_, hpending⟩)
      refine (List.mem_cons.mp hother).resolve_left ?_
      rintro rfl
      exact hp hpending

theorem Accounted.keep (ha : Accounted c i) {d : Entry}
    (hget : ∀ n, c'.entries.get? n = if n = name then some d else c.entries.get? n)
    (hpending : ∀ e, c.entries.get? name = some e → e.pending = some i → d.pending = some i)
    (hsignals : c.signals[i]? = some ⟨true⟩ → c'.signals[i]? = some ⟨true⟩) :
    Accounted c' i := by
  rcases ha with ⟨n, e, hentry, hi⟩ | hset
  · rcases eq_or_ne n name with rfl | hn
    · exact .inl ⟨n, d, by rw [hget, if_pos rfl], hpending e hentry hi⟩
    · exact .inl ⟨n, e, by rw [hget, if_neg hn, hentry], hi⟩
  · exact .inr (hsignals hset)

theorem Accounted.wake (ha : Accounted c i) (hc : c.Tidy)
    (hentry : c.entries.get? name = some e)
    (hother : ∀ n, n ≠ name → c'.entries.get? n = c.entries.get? n)
    (hsignals : c'.signals = signalled c.signals e.pending) : Accounted c' i := by
  rcases ha with ⟨n, d, hd, hi⟩ | hset
  · rcases eq_or_ne n name with rfl | hn
    · rw [hentry] at hd
      obtain rfl := Option.some.inj hd
      right
      rw [hsignals, hi]
      exact getElem?_signalled_self (hc.pending hentry hi)
    · exact .inl ⟨n, d, by rw [hother n hn, hd], hi⟩
  · right
    rw [hsignals]
    exact getElem?_signalled_of_set _ hset

theorem Accounted.waits (ha : Accounted t.cache i) (hw : Waits t t' name e h old e' started)
    (hpending : e.pending = (t.cache.entries.get? name).bind (·.pending)) :
    Accounted t'.cache i := by
  refine ha.keep hw.get? (fun d hd hi => ?_) fun hset => ?_
  · rw [hd, Option.bind_some, hi] at hpending
    rw [hw.enters.entry]
    simp only [Entry.waitingAt, signalOf, hpending, Option.getD_some]
  · rw [hw.enters.signals]
    show (t.cache.signalsFor e)[i]? = _
    rw [signalsFor]
    split_ifs
    · exact hset
    · have hlt : i < t.cache.signals.size := (Array.getElem?_eq_some_iff.mp hset).1
      rw [Array.getElem?_push, if_neg (by omega), hset]

theorem Accounted.gives (ha : Accounted t.cache i) (hg : Gives name t h t') :
    Accounted t'.cache i := by
  cases hg with
  | again => exact ha
  | waits t' e h e' started hentry _ hw =>
    refine ha.waits hw ?_
    rw [hentry]
    cases t.cache.entries.get? name <;> rfl

theorem Accounted.restarts (ha : Accounted t.cache i) (hc : t.cache.Tidy)
    (hr : Restarts name t t') : Accounted t'.cache i := by
  cases hr with
  | absent => exact ha
  | unused e hentry htask _ =>
    -- an entry without a load has no signal that anyone could wait on
    have hpending : e.pending = none := by
      rcases hc.shaped name e hentry with hw | hs
      · obtain ⟨task, hheld⟩ := hw.task
        rw [htask] at hheld
        cases hheld
      · exact hs.pending
    refine ha.wake hc hentry (fun n hn => ?_) (by rw [hpending]; rfl)
    show (t.cache.entries.erase name).get? n = _
    rw [Dict.get?_erase hc.wellFormed, if_neg hn]
  | waits t' e live h e' started hentry _ hw =>
    refine ha.waits hw ?_
    rw [hentry]
    rfl

theorem Accounted.completes {load : Load} {outcome : Except Failure Value}
    (ha : Accounted t.cache i) (hc : t.cache.Tidy) (hcompletes : Completes load outcome t t') :
    Accounted t'.cache i := by
  have hgone : ∀ n, n ≠ load.name →
      (t.cache.entries.erase load.name).get? n = t.cache.entries.get? n := fun n hn => by
    rw [Dict.get?_erase hc.wellFormed, if_neg hn]
  cases hcompletes with
  | orphaned => exact ha
  | delivered e h o hs hentry _ _ _ _ _ =>
    refine ha.wake hc hentry (fun n hn => ?_) rfl
    show (t.cache.entries.insert load.name (e.loadedAt h)).get? n = _
    rw [Dict.get?_insert, if_neg hn]
  | dropped e h hs hentry _ _ _ _ => exact ha.wake hc hentry hgone rfl
  | abandoned e hentry _ _ _ => exact ha.wake hc hentry hgone rfl
  | again t' e e' started hentry _ _ _ he =>
    refine ha.keep he.get? (fun d hd hi => ?_) fun hset => ?_
    · rw [hentry] at hd
      obtain rfl := Option.some.inj hd
      rw [he.entry]
      exact hi
    · rw [he.signals]
      exact hset

theorem Accounted.update (ha : Accounted t.cache i) (hc : t.cache.Tidy) (name : String)
    (value : Value) : Accounted ((Cache.update name value).run t).2.cache i := by
  rcases run_update name value t with ⟨-, hsame⟩ | ⟨-, hrestarts⟩
  · rw [hsame]
    exact ha
  · exact Accounted.restarts (t := serving t name value) ha
      ⟨hc.wellFormed, hc.shaped, hc.apart⟩ hrestarts

theorem Accounted.clear (ha : Accounted t.cache i) (hc : t.cache.Tidy) :
    Accounted (Cache.clear.run t).2.cache i := by
  right
  rw [run_clear_eq]
  rcases ha with ⟨n, e, hentry, hi⟩ | hset
  · exact getElem?_signalledAll (hc.pending hentry hi)
      (.inr ⟨(n, e), (Dict.get?_eq_some_iff hc.wellFormed).mp hentry, hi⟩)
  · exact getElem?_signalledAll hset (.inl rfl)

end Steps

end Cache

namespace System

variable {σ : Type} {s s' s₀ : System σ} {i : Nat}

/-- The load of an entry is in flight. -/
def InFlight (s : System σ) (name : String) (e : Entry) : Prop :=
  ∃ f ∈ s.flights, f.load.name = name ∧ e.task = some f.load.task

/-! ## Steps -/

/-- The slots that the cache is loading are those of entries that wait. -/
def Watched (s : System σ) : Prop := Cache.Watched s.turn

theorem watched_after {t : Turn σ} (hw : Cache.Watched t) : (s.after t).Watched := hw

theorem watched_ask (hw : s.Watched) (name : String) : (s.ask name).Watched := by
  have hgives : Cache.Watched ((Cache.getResource name).run s.turn).2 :=
    Cache.Watched.gives hw (Cache.run_getResource name s.turn) fun _ howned =>
      Cache.owned_getResource howned
  exact hgives

theorem watched_complete (ho : s.Orderly) (hw : s.Watched) (flights : List (Flight σ))
    (load : Load) (outcome : Except Failure Value) :
    (act { s with flights := flights }
      (Cache.completeLoad load outcome >>= fun _ => Cache.endLoad)).Watched := by
  have hcompleted : Cache.Watched ((Cache.completeLoad load outcome).run s.turn).2 :=
    Cache.Watched.completes hw ho.tidy.wellFormed (Cache.run_completeLoad load outcome s.turn)
      fun _ howned => Cache.owned_completeLoad howned
  exact hcompleted

theorem accounted_complete (ho : s.Orderly) (ha : s.cache.Accounted i) (flights : List (Flight σ))
    (load : Load) (outcome : Except Failure Value) :
    (act { s with flights := flights }
      (Cache.completeLoad load outcome >>= fun _ => Cache.endLoad)).cache.Accounted i := by
  have hcompleted : ((Cache.completeLoad load outcome).run s.turn).2.cache.Accounted i :=
    Cache.Accounted.completes ha ho.tidy (Cache.run_completeLoad load outcome s.turn)
  exact hcompleted

variable [ObjectClass σ]

/-- **What a step leaves to the cache to load, an entry waits for.** -/
theorem watched_step (ho : s.Orderly) (hw : s.Watched) (hstep : Step s s') : s'.Watched := by
  cases hstep with
  | getResource name => exact watched_ask hw name
  | invalidate name =>
    exact watched_after (Cache.Watched.restarts hw ho.tidy.wellFormed
      (Cache.run_invalidate name s.turn) fun g howned => Cache.owned_invalidate howned)
  | setResources d =>
    exact watched_after (Cache.setResources_induction
      (P := fun t => Cache.Orderly t s.tickets s.epoch 0 ∧ Cache.Watched t)
      (fun _ n v hu => ⟨Cache.orderly_update hu.1 n v, hu.2.update hu.1.tidy.wellFormed n v⟩) d
      ⟨ho, hw⟩).2
  | clear => exact watched_after (Cache.Watched.clear hw ho.tidy.wellFormed)
  | drainEvents => exact hw
  | newHandle name value => exact fun g howned => hw g (Handles.owned_new howned)
  | hold g _ => exact hw
  | drop link => exact hw
  | free store hfrees =>
    intro g howned
    exact hw g (howned.congr (Store.slot?_of_isSome hfrees howned.isSome))
  | read before after f hf _ => exact hw
  | request before after f name next hf _ =>
    exact watched_ask (s := s.goOn before after (f.working (next (s.answer name)))) hw name
  | make before after f item next hf _ => exact hw
  | complete before after f rest outcome hf _ _ => exact watched_complete ho hw _ f.load outcome

/-- **A signal that is accounted for stays so.** -/
theorem accounted_step (ho : s.Orderly) (ha : s.cache.Accounted i) (hstep : Step s s') :
    s'.cache.Accounted i := by
  cases hstep with
  | getResource name => exact Cache.Accounted.gives ha (Cache.run_getResource name s.turn)
  | invalidate name =>
    exact Cache.Accounted.restarts ha ho.tidy (Cache.run_invalidate name s.turn)
  | setResources d =>
    exact (Cache.setResources_induction
      (P := fun t => Cache.Orderly t s.tickets s.epoch 0 ∧ t.cache.Accounted i)
      (fun _ n v hu => ⟨Cache.orderly_update hu.1 n v, hu.2.update hu.1.tidy n v⟩) d ⟨ho, ha⟩).2
  | clear => exact Cache.Accounted.clear (t := s.turn) ha ho.tidy
  | drainEvents => exact ha
  | newHandle name value => exact ha
  | hold g _ => exact ha
  | drop link => exact ha
  | free store _ => exact ha
  | read before after f hf _ => exact ha
  | request before after f name next hf _ =>
    exact Cache.Accounted.gives ha (Cache.run_getResource name s.turn)
  | make before after f item next hf _ => exact ha
  | complete before after f rest outcome hf _ _ => exact accounted_complete ho ha _ f.load outcome

/-! ## Runs -/

theorem Reachable.watched (hs : Reachable s) : s.Watched := by
  induction hs with
  | start id registry =>
    intro g ho
    cases hg : g.slot with
    | none =>
      have hthere := ho.isSome
      simp [Handles.slot?, hg] at hthere
    | some j =>
      have hlt : j < 0 := Handles.lt_size_of_slot? hg ho.isSome
      omega
  | step hs hstep ih => exact watched_step hs.orderly ih hstep

theorem Reachable.accounted (hs : Reachable s₀) (hrun : Relation.ReflTransGen Step s₀ s)
    (ha : s₀.cache.Accounted i) : Reachable s ∧ s.cache.Accounted i := by
  induction hrun with
  | refl => exact ⟨hs, ha⟩
  | tail _ hstep ih => exact ⟨ih.1.step hstep, accounted_step ih.1.orderly ih.2 hstep⟩

/-- An entry that waits has its load in flight. -/
theorem Reachable.inFlight (hs : Reachable s) {name : String} {e : Entry}
    (he : s.cache.entries.get? name = some e) (hw : e.Waiting s.cache.signals) :
    s.InFlight name e := by
  obtain ⟨task, htask⟩ := hw.task
  have hheld : (⟨name, task⟩, s.epoch) ∈ s.tickets :=
    (hs.ticketed.held name task).mp (by rw [Cache.taskOf, he, Option.bind_some, htask])
  obtain ⟨f, hf, hticket⟩ := List.mem_map.mp hheld
  have hload : f.load = ⟨name, task⟩ := (Prod.mk.inj hticket).1
  exact ⟨f, hf, by rw [hload], by rw [hload]; exact htask⟩

/-- A slot that the cache is loading is that of the entry of its name, which waits for a load in
flight. -/
theorem Reachable.waiting_of_owned (hs : Reachable s) {g : Handle} {slot : Slot}
    (hslot : s.store.handles.slot? g = some slot) (howner : slot.owner = some s.cache.id)
    (hlast : slot.replacement = none) :
    ∃ e h, s.cache.entries.get? slot.name = some e ∧ e.handle = some h ∧ h.slot = g.slot ∧
      e.Waiting s.cache.signals ∧ s.InFlight slot.name e := by
  have howned : s.store.handles.Owned s.cache.id g := by
    constructor
    · rw [Handles.owner?, hslot, Option.bind_some, howner]
    · rw [Handles.replacement?, hslot, Option.bind_some, hlast]
  obtain ⟨n, e, h, hentry, hloading, hhandle, hsame⟩ := hs.watched g howned
  have hend : s.turn.cache.endOf n = some h := by
    rw [Cache.endOf, hentry, Option.bind_some, hhandle]
  obtain rfl : slot.name = n :=
    hs.links.named n h slot hend ((Handles.slot?_congr hsame).trans hslot)
  have hwaiting : e.Waiting s.cache.signals := by
    refine (hs.orderly.tidy.shaped slot.name e hentry).resolve_right fun hsettled => ?_
    rw [hsettled.state] at hloading
    cases hloading
  exact ⟨e, h, hentry, hhandle, hsame, hwaiting, hs.inFlight hentry hwaiting⟩

/-- What waiting has to rely on. -/
structure NoWaiterLeft (s : System σ) : Prop where
  /-- A handle that is there, that nothing replaces and that the cache is loading, is that of the
  entry of its name. The entry waits on a signal that is not set, for a load in flight. -/
  owned : ∀ g slot, s.store.handles.slot? g = some slot → slot.owner = some s.cache.id →
    slot.replacement = none → ∃ e h, s.cache.entries.get? slot.name = some e ∧
      e.handle = some h ∧ h.slot = g.slot ∧ e.Waiting s.cache.signals ∧ s.InFlight slot.name e
  /-- Whoever flushes a handle that has not finished loading finds a signal to wait on. -/
  flush : ∀ g, s.cache.flushed? s.store.handles g = none →
    ∃ slot e i, s.store.handles.slot? (s.store.handles.latest g) = some slot ∧
      s.cache.entries.get? slot.name = some e ∧ e.pending = some i ∧
      s.cache.signals[i]? = some .unset ∧ s.InFlight slot.name e
  /-- A signal that an entry waited on at any time before is still waited on, for a load in flight,
  or was set. -/
  signals : ∀ s₀ n e i, Reachable s₀ → Relation.ReflTransGen Step s₀ s →
    s₀.cache.entries.get? n = some e → e.pending = some i →
    (∃ m d, s.cache.entries.get? m = some d ∧ d.pending = some i ∧
      s.cache.signals[i]? = some .unset ∧ s.InFlight m d) ∨ s.cache.signals[i]? = some ⟨true⟩

/-- **Nobody waits in vain**, in any state of a cache: what it is loading has a load in flight and a
signal that this load sets, and no signal is lost. -/
theorem Reachable.no_waiter_left (hs : Reachable s) : s.NoWaiterLeft := by
  constructor
  case owned => exact fun g slot hslot howner hlast => hs.waiting_of_owned hslot howner hlast
  case flush =>
    intro g hwaits
    have howner : s.store.handles.owner? (s.store.handles.latest g) = some s.cache.id := by
      by_contra hnot
      simp only [Cache.flushed?, if_neg hnot, reduceCtorEq] at hwaits
    rw [Handles.owner?, Option.bind_eq_some_iff] at howner
    obtain ⟨slot, hslot, howner⟩ := howner
    have hlast : s.store.handles.replacement? (s.store.handles.latest g) = none :=
      hs.links.forward.replacement?_latest g
    rw [Handles.replacement?, hslot, Option.bind_some] at hlast
    obtain ⟨e, h, hentry, -, -, hwaiting, hflight⟩ := hs.waiting_of_owned hslot howner hlast
    obtain ⟨i, hi, hunset⟩ := hwaiting.pending
    exact ⟨slot, e, i, hslot, hentry, hi, hunset, hflight⟩
  case signals =>
    intro s₀ n e i hs₀ hrun hentry hi
    refine (hs₀.accounted hrun (.inl ⟨n, e, hentry, hi⟩)).2.imp_left ?_
    rintro ⟨m, d, hd, hpending⟩
    have hwaiting : d.Waiting s.cache.signals := by
      refine (hs.orderly.tidy.shaped m d hd).resolve_right fun hsettled => ?_
      rw [hsettled.pending] at hpending
      cases hpending
    exact ⟨m, d, hd, hpending, hs.orderly.tidy.pending hd hpending, hs.inFlight hd hwaiting⟩

/-- A cache that was asked for a name, cleared, and asked again: the first signal was set, and the
handle of the second request waits on another one. -/
theorem no_waiter_left_askedTwice :
    askedTwice.cache.flushed? askedTwice.store.handles ⟨"a", some 0⟩ = some ⟨"a", some 0⟩ ∧
      askedTwice.cache.flushed? askedTwice.store.handles ⟨"a", some 1⟩ = none ∧
      askedTwice.cache.signals = #[⟨true⟩, .unset] ∧ Reachable askedTwice ∧
      askedTwice.NoWaiterLeft :=
  ⟨rfl, rfl, rfl, reachable_askedTwice, reachable_askedTwice.no_waiter_left⟩

end System

end ResourceTree
