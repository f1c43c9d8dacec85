import ResourceTree.Proofs.Cache.Entries

/-!
# Chains of handles

Every handle that was given out for a name since the cache was last cleared stands in one chain of
replacements, which ends at the handle of the entry. So all holders of the name see one value.

* `Linked`: the chains lead to the handles of entries;
* `Linked.adds`, `Linked.forget`, `Linked.frees`: chains under the changes that the cache and its
  user make;
* **`Reachable.linked`**: in every state, chains lead to the handles of entries.
-/

namespace ResourceTree

/-- The slots, the handles of entries, the handles that were given out, and what the program
holds. -/
structure Linked (hs : Handles) (ends : String → Option Handle) (issued : List Issue)
    (held : List Link) (epoch : Nat) : Prop where
  forward : hs.Forward
  /-- The handle of an entry has had a slot. -/
  known : ∀ n h, ends n = some h → ∃ i, h.slot = some i ∧ i < hs.slots.size
  last : ∀ n h, ends n = some h → hs.replacement? h = none
  named : ∀ n h slot, ends n = some h → hs.slot? h = some slot → slot.name = n
  given : ∀ x ∈ issued, x.epoch ≤ epoch ∧ ∃ i, x.handle.slot = some i ∧ i < hs.slots.size
  /-- What was given out lately and is still there leads to the handle of the entry. -/
  leads : ∀ x ∈ issued, x.epoch = epoch → (hs.slot? x.handle).isSome →
    ∃ h, ends x.name = some h ∧ hs.LeadsTo x.handle h
  there : ∀ g i, g.slot = some i → .slot i ∈ held → (hs.slot? g).isSome

namespace Linked

variable {hs hs' : Handles} {ends ends' : String → Option Handle} {issued : List Issue}
  {held : List Link} {epoch : Nat} {name : String} {h o : Handle} {value : Value}
  {old : Option Handle}

theorem start : Linked .empty (fun _ => none) [] [] 0 := by
  refine ⟨fun g r hr => ?_, ?_, ?_, ?_, ?_, ?_, ?_⟩
  · cases hg : g.slot <;> simp [Handles.replacement?, Handles.slot?, Handles.empty, hg] at hr
  all_goals simp

/-- A handle that is there and the handle of an entry are of one name, if they have one slot. -/
theorem name_eq (hl : Linked hs ends issued held epoch) {n m : String} {g : Handle}
    (hg : ends n = some g) (ho : ends m = some o) (hthere : (hs.slot? o).isSome)
    (hslot : g.slot = o.slot) : n = m := by
  obtain ⟨slot, hs⟩ := Option.isSome_iff_exists.mp hthere
  rw [← hl.named n g slot hg ((Handles.slot?_congr hslot).trans hs), hl.named m o slot ho hs]

/-- There is a new slot, which may be that of the entry of its name, and which replaces the one
before if that is there. -/
theorem grow (hl : Linked hs ends issued held epoch) (ha : hs.Adds hs' h value old)
    (hlive : ∀ o, old = some o → ends h.name = some o)
    (hends : ∀ n g, ends' n = some g →
      n = h.name ∧ g = h ∨ ends n = some g ∧ ∀ o, old = some o → n ≠ h.name)
    (hleads : ∀ n g, ends n = some g → (hs.slot? g).isSome →
      ends' n = some g ∨ old = some g ∧ ends' n = some h) :
    Linked hs' ends' issued held epoch := by
  have hother : ∀ n g, ends n = some g → g.slot ≠ h.slot := fun n g hg =>
    have ⟨_, hi, hlt⟩ := hl.known n g hg
    ha.slot_ne_of_lt hi hlt
  have hend : ∀ o, old = some o → hs.replacement? o = none := fun o ho =>
    hl.last _ o (hlive o ho)
  have hlt : ∀ i, i < hs.slots.size → i < hs'.slots.size := fun i hi => by
    rw [ha.size]
    exact Nat.lt_succ_of_lt hi
  constructor
  case forward => exact ha.forward hl.forward
  case known =>
    intro n g hg
    rcases hends n g hg with ⟨-, rfl⟩ | ⟨hg, -⟩
    · exact ⟨_, ha.slot, by rw [ha.size]; exact Nat.lt_succ_self _⟩
    · obtain ⟨i, hi, hsize⟩ := hl.known n g hg
      exact ⟨i, hi, hlt i hsize⟩
  case last =>
    intro n g hg
    rcases hends n g hg with ⟨-, rfl⟩ | ⟨hg, hn⟩
    · exact ha.replacement?_self
    · rw [ha.next g (hother n g hg) fun o ho he => hn o ho ?_]
      · exact hl.last n g hg
      · exact hl.name_eq hg (hlive o ho) (ha.behind o ho).1 he
  case named =>
    intro n g slot hg hslot
    rcases hends n g hg with ⟨rfl, rfl⟩ | ⟨hg, -⟩
    · have hfresh := ha.fresh
      rw [hslot, Option.map_some, Option.some.injEq, Prod.mk.injEq] at hfresh
      exact hfresh.1
    · have hkept := ha.kept g (hother n g hg)
      rw [hslot, Option.map_some, eq_comm, Option.map_eq_some_iff] at hkept
      obtain ⟨slot', hslot', he⟩ := hkept
      rw [← hl.named n g slot' hg hslot']
      exact (congrArg Prod.fst he).symm
  case given =>
    intro x hx
    obtain ⟨hle, i, hi, hsize⟩ := hl.given x hx
    exact ⟨hle, i, hi, hlt i hsize⟩
  case leads =>
    intro x hx hepoch hthere
    obtain ⟨-, i, hi, hsize⟩ := hl.given x hx
    rw [ha.isSome_iff (ha.slot_ne_of_lt hi hsize)] at hthere
    obtain ⟨g, hg, hxg⟩ := hl.leads x hx hepoch hthere
    have hxg' := ha.leadsTo hend hxg
    rcases hleads x.name g hg (hl.forward.isSome_of_leadsTo hxg hthere) with hg' | ⟨ho, hh⟩
    · exact ⟨g, hg', hxg'⟩
    · exact ⟨h, hh, hxg'.trans (ha.leadsTo_self g ho)⟩
  case there =>
    intro g i hg hheld
    have hthere := hl.there g i hg hheld
    exact (ha.isSome_iff (ha.slot_ne hthere)).mpr hthere

theorem adds (hl : Linked hs ends issued held epoch) (ha : hs.Adds hs' h value old)
    (hname : h.name = name) (hlive : ∀ o, old = some o → ends name = some o)
    (hold : ∀ g, ends name = some g → (hs.slot? g).isSome → old = some g)
    (hnew : ∀ n, ends' n = if n = name then some h else ends n) :
    Linked hs' ends' issued held epoch := by
  subst hname
  refine hl.grow ha hlive (fun n g hg => ?_) fun n g hg hthere => ?_
  · rw [hnew] at hg
    split_ifs at hg with hn
    · exact .inl ⟨hn, (Option.some.inj hg).symm⟩
    · exact .inr ⟨hg, fun _ _ => hn⟩
  · rw [hnew]
    split_ifs with hn
    · rw [hn] at hg
      exact .inr ⟨hold g hg hthere, rfl⟩
    · exact .inl hg

theorem adds_unused (hl : Linked hs ends issued held epoch) (ha : hs.Adds hs' h value none) :
    Linked hs' ends issued held epoch :=
  hl.grow ha nofun (fun _ _ hg => .inr ⟨hg, nofun⟩) fun _ _ hg _ => .inl hg

theorem forget (hl : Linked hs ends issued held epoch)
    (hdead : ∀ g, ends name = some g → hs.slot? g = none)
    (hnew : ∀ n, ends' n = if n = name then none else ends n) :
    Linked hs ends' issued held epoch := by
  have hsub : ∀ n g, ends' n = some g → ends n = some g := by
    intro n g hg
    rw [hnew] at hg
    split_ifs at hg
    exact hg
  refine ⟨hl.forward, fun n g hg => hl.known n g (hsub n g hg),
    fun n g hg => hl.last n g (hsub n g hg), fun n g slot hg => hl.named n g slot (hsub n g hg),
    hl.given, fun x hx hepoch hthere => ?_, hl.there⟩
  obtain ⟨g, hg, hleads⟩ := hl.leads x hx hepoch hthere
  refine ⟨g, ?_, hleads⟩
  rw [hnew, if_neg fun hn => ?_, hg]
  have hg' := hl.forward.isSome_of_leadsTo hleads hthere
  rw [hn] at hg
  rw [hdead g hg] at hg'
  cases hg'

theorem give (hl : Linked hs ends issued held epoch) (hend : ends name = some h) :
    Linked hs ends (issued ++ [⟨name, h, epoch⟩]) held epoch where
  forward := hl.forward
  known := hl.known
  last := hl.last
  named := hl.named
  given x hx := by
    rcases List.mem_append.mp hx with hx | hx
    · exact hl.given x hx
    · rw [List.mem_singleton.mp hx]
      exact ⟨Nat.le_refl _, hl.known name h hend⟩
  leads x hx hepoch hthere := by
    rcases List.mem_append.mp hx with hx | hx
    · exact hl.leads x hx hepoch hthere
    · rw [List.mem_singleton.mp hx]
      exact ⟨h, hend, .refl⟩
  there := hl.there

theorem frees {σ : Type} [ObjectClass σ] {s s' : Store σ} {kept : List Link}
    (hl : Linked s.handles ends issued held epoch) (hf : s.Frees kept s')
    (hkept : ∀ i, .slot i ∈ held → .slot i ∈ kept) :
    Linked s'.handles ends issued held epoch := by
  have hsome : ∀ g, (s'.handles.slot? g).isSome → (s.handles.slot? g).isSome := fun g hg => by
    rw [← Store.slot?_of_isSome hf hg]
    exact hg
  constructor
  case forward => exact Store.forward_frees hf hl.forward
  case known =>
    intro n h hh
    rw [Store.size_frees hf]
    exact hl.known n h hh
  case last =>
    intro n h hh
    rcases Store.slot?_frees hf h with he | ⟨he, -⟩
    · rw [Handles.replacement?, he]
      exact hl.last n h hh
    · rw [Handles.replacement?, he]
      rfl
  case named =>
    intro n h slot hh hslot
    rw [Store.slot?_of_isSome hf (by rw [hslot]; rfl)] at hslot
    exact hl.named n h slot hh hslot
  case given =>
    rw [Store.size_frees hf]
    exact hl.given
  case leads =>
    intro x hx hepoch hthere
    obtain ⟨h, hh, hleads⟩ := hl.leads x hx hepoch (hsome _ hthere)
    exact ⟨h, hh, Store.leadsTo_frees hf hl.forward hthere hleads⟩
  case there =>
    intro g i hg hheld
    exact Store.isSome_frees_of_kept hf hg (hkept i hheld) (hl.there g i hg hheld)

theorem clear (hl : Linked hs ends issued held epoch) (ha : hs.Alike hs') :
    Linked hs' (fun _ => none) issued held (epoch + 1) := by
  refine ⟨ha.forward hl.forward, nofun, nofun, nofun, fun x hx => ?_, fun x hx hepoch _ => ?_,
    fun g i hg hheld => ?_⟩
  · rw [ha.size]
    exact ⟨Nat.le_succ_of_le (hl.given x hx).1, (hl.given x hx).2⟩
  · have hle := (hl.given x hx).1
    omega
  · rw [ha.isSome_eq]
    exact hl.there g i hg hheld

theorem hold (hl : Linked hs ends issued held epoch) (hthere : (hs.slot? h).isSome) :
    Linked hs ends issued (held ++ h.links) epoch := by
  refine { hl with there := fun g i hg hheld => ?_ }
  rcases List.mem_append.mp hheld with hheld | hheld
  · exact hl.there g i hg hheld
  · obtain ⟨j, hj, he⟩ := List.mem_map.mp hheld
    obtain rfl := Link.slot.inj he
    rw [Handles.slot?_congr (hg.trans (Option.mem_toList.mp hj).symm)]
    exact hthere

end Linked

namespace Cache

variable {σ : Type} {c c' : Cache σ} {t t' : Turn σ} {issued : List Issue} {held : List Link}
  {epoch : Nat} {name : String} {h : Handle}

/-- The handle of the entry of a name. -/
def endOf (c : Cache σ) (name : String) : Option Handle := (c.entries.get? name).bind (·.handle)

theorem endOf_of_get? {x : Option Entry}
    (hget : ∀ n, c'.entries.get? n = if n = name then x else c.entries.get? n) (n : String) :
    c'.endOf n = if n = name then x.bind (·.handle) else c.endOf n := by
  rw [endOf, hget, endOf]
  split_ifs <;> rfl

theorem Waits.endOf_eq {e e' : Entry} {old : Option Handle} {started : Option LoadTask}
    (hw : Waits t t' name e h old e' started) (n : String) :
    t'.cache.endOf n = if n = name then some h else t.cache.endOf n := by
  rw [endOf_of_get? (c := t.cache) hw.get?, Option.bind_some, hw.handle]

theorem endOf_of_empty (hempty : c.entries = ∅) : c.endOf = fun _ => none := by
  funext n
  rw [endOf, hempty, Dict.get?_empty]
  rfl

theorem dead_of_getD (hdead : ((t.cache.entries.get? name).getD .new).Dead t.store.handles)
    (g : Handle) (hg : t.cache.endOf name = some g) : t.store.handles.slot? g = none := by
  obtain ⟨e, he, hg⟩ := Option.bind_eq_some_iff.mp hg
  rw [he, Option.getD_some] at hdead
  exact hdead g hg

/-- The slots and entries of a turn are linked. -/
def Links (t : Turn σ) (issued : List Issue) (held : List Link) (epoch : Nat) : Prop :=
  Linked t.store.handles t.cache.endOf issued held epoch

theorem Links.slot_of_adds {n : String} {hs : Handles} {value : Value} {old : Option Handle}
    {g : Handle} (hl : Links t issued held epoch) (ha : t.store.handles.Adds hs h value old)
    (hg : t.cache.endOf n = some g) (hthere : (hs.slot? g).isSome) :
    (t.store.handles.slot? g).isSome ∧ hs.ownValue g = t.store.handles.ownValue g := by
  obtain ⟨i, hi, hlt⟩ := hl.known n g hg
  have hne := ha.slot_ne_of_lt hi hlt
  exact ⟨(ha.isSome_iff hne).mp hthere, ha.ownValue_eq hne⟩

theorem Links.gives (hl : Links t issued held epoch) (hg : Gives name t h t') :
    Links t' issued held epoch ∧ t'.cache.endOf name = some h ∧ (t'.store.handles.slot? h).isSome := by
  cases hg with
  | again e h hentry hhandle hthere =>
    exact ⟨hl, by rw [endOf, hentry, Option.bind_some, hhandle], hthere⟩
  | waits t' e h e' started hentry hdead hw =>
    subst hentry
    refine ⟨hl.adds hw.adds hw.named nofun (fun g hg hthere => ?_) hw.endOf_eq, ?_,
      hw.adds.isSome_self⟩
    · rw [dead_of_getD hdead g hg] at hthere
      cases hthere
    · rw [hw.endOf_eq, if_pos rfl]

theorem Links.restarts (hl : Links t issued held epoch) (hwell : t.cache.entries.WellFormed)
    (hr : Restarts name t t') : Links t' issued held epoch := by
  cases hr with
  | absent => exact hl
  | unused e hentry _ hdead =>
    refine hl.forget (fun g hg => ?_)
      (endOf_of_get? (x := none) fun n => Dict.get?_erase hwell)
    rw [endOf, hentry, Option.bind_some] at hg
    exact hdead g hg
  | waits t' e live h e' started hentry hlive hw =>
    refine hl.adds hw.adds hw.named (fun o ho => ?_) (fun g hg hthere => ?_) hw.endOf_eq
    · rw [endOf, hentry, Option.bind_some]
      exact (bind_upgrade?_eq_some.mp (hlive ▸ ho)).1
    · rw [endOf, hentry, Option.bind_some] at hg
      rw [hlive]
      exact bind_upgrade?_eq_some.mpr ⟨hg, hthere⟩

theorem Links.completes {load : Load} {outcome : Except Failure Value}
    (hl : Links t issued held epoch) (hwell : t.cache.entries.WellFormed)
    (hc : Completes load outcome t t') : Links t' issued held epoch := by
  cases hc with
  | orphaned => exact hl
  | delivered e h o hs hentry _ _ hhandle hadds hname =>
    have hend : t.cache.endOf load.name = some o := by
      rw [endOf, hentry, Option.bind_some, hhandle]
    refine Linked.adds hl hadds hname (fun g hg => ?_) (fun g hg _ => ?_)
      (endOf_of_get? (x := some (e.loadedAt h)) fun n => Dict.get?_insert)
    · rw [hend, hg]
    · rw [← hend, hg]
  | dropped e h hs hentry _ _ hdead hadds =>
    refine Linked.forget (Linked.adds_unused hl hadds) (fun g hg => ?_)
      (endOf_of_get? (x := none) fun n => Dict.get?_erase hwell)
    obtain ⟨i, hi, hlt⟩ := hl.known _ g hg
    have hgone := hadds.isSome_iff (hadds.slot_ne_of_lt hi hlt)
    rw [endOf, hentry, Option.bind_some] at hg
    rw [hdead g hg] at hgone
    exact Option.not_isSome_iff_eq_none.mp fun h => Bool.noConfusion (hgone.mp h)
  | abandoned e hentry _ _ hdead =>
    refine Linked.forget hl (fun g hg => ?_)
      (endOf_of_get? (x := none) fun n => Dict.get?_erase hwell)
    rw [endOf, hentry, Option.bind_some] at hg
    exact hdead g hg
  | again t' e e' started hentry _ _ _ he =>
    have hsame : t'.cache.endOf = t.cache.endOf := by
      funext n
      rw [endOf_of_get? he.get?]
      split_ifs with hn
      · rw [hn, endOf, hentry, Option.bind_some, Option.bind_some, he.entry]
      · rfl
    rw [Links, hsame, he.store]
    exact hl

theorem Links.update (hl : Links t issued held epoch) (hwell : t.cache.entries.WellFormed)
    (name : String) (value : Value) : Links ((update name value).run t).2 issued held epoch := by
  rcases run_update name value t with ⟨-, hsame⟩ | ⟨-, hrestarts⟩
  · rw [hsame]
    exact hl
  · exact Links.restarts (t := serving t name value) hl hwell hrestarts

theorem Links.clear (hl : Links t issued held epoch) :
    Links (Cache.clear.run t).2 issued held (epoch + 1) := by
  obtain ⟨hs, signals, ha, hrun⟩ := run_clear t
  have hcleared : Linked hs (fun _ => none) issued held (epoch + 1) := Linked.clear hl ha
  rw [Links, endOf_of_empty (by rw [hrun]), hrun]
  exact hcleared

end Cache

namespace System

variable {σ : Type} {s s' : System σ} {t : Turn σ}

/-- The slots and entries of a system are linked. -/
def Links (s : System σ) : Prop := Cache.Links s.turn s.issued s.held s.epoch

theorem links_after (hl : Cache.Links t s.issued s.held s.epoch) : (s.after t).Links := hl

theorem links_ask (hl : s.Links) (name : String) :
    (s.ask name).Links ∧ ((s.ask name).store.handles.slot? (s.answer name)).isSome := by
  obtain ⟨hgives, hend, hthere⟩ := Cache.Links.gives hl (Cache.run_getResource name s.turn)
  exact ⟨Linked.give hgives hend, hthere⟩

theorem links_complete (ho : s.Orderly) (hl : s.Links) (flights : List (Flight σ)) (load : Load)
    (outcome : Except Failure Value) :
    (act { s with flights := flights }
      (Cache.completeLoad load outcome >>= fun _ => Cache.endLoad)).Links := by
  have hcompleted := Cache.Links.completes hl ho.tidy.wellFormed
    (Cache.run_completeLoad load outcome s.turn)
  exact hcompleted

variable [ObjectClass σ]

theorem links_step (ho : s.Orderly) (hl : s.Links) (hstep : Step s s') : s'.Links := by
  cases hstep with
  | getResource name =>
    obtain ⟨hask, hthere⟩ := links_ask hl name
    exact Linked.hold hask hthere
  | invalidate name =>
    exact links_after (hl.restarts ho.tidy.wellFormed (Cache.run_invalidate name s.turn))
  | setResources d =>
    exact (Cache.setResources_induction
      (P := fun t => Cache.Orderly t s.tickets s.epoch 0 ∧ Cache.Links t s.issued s.held s.epoch)
      (fun _ n v hu => ⟨Cache.orderly_update hu.1 n v, hu.2.update hu.1.tidy.wellFormed n v⟩) d
      ⟨ho, hl⟩).2
  | clear => exact links_after (s := { s with epoch := s.epoch + 1 }) hl.clear
  | drainEvents => exact hl
  | newHandle name value =>
    have hadds := Handles.adds_new s.store.handles name value
    exact Linked.hold (Linked.adds_unused hl hadds) hadds.isSome_self
  | hold g hthere => exact Linked.hold hl hthere
  | drop link =>
    exact { hl with there := fun g i hg hheld => hl.there g i hg (List.mem_of_mem_erase hheld) }
  | free store hfrees => exact Linked.frees hl hfrees fun i hi => List.mem_append_left _ hi
  | read before after f hf _ => exact hl
  | request before after f name next hf _ => exact (links_ask hl name).1
  | make before after f item next hf _ => exact hl
  | complete before after f rest outcome hf _ _ => exact links_complete ho hl _ f.load outcome

/-- **Chains lead to the handles of entries**, in every state. -/
theorem Reachable.links (hs : Reachable s) : s.Links := by
  induction hs with
  | start id registry =>
    have hempty := Cache.endOf_of_empty (c := Cache.new id registry) rfl
    rw [Links, Cache.Links]
    exact hempty ▸ Linked.start
  | step hs hstep ih => exact links_step hs.orderly ih hstep

end System

end ResourceTree
