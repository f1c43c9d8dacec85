import ResourceTree.Proofs.Walk.Judgement

/-!
# Walks with an account — what every visit of a member adds to

An account says what holds along a run and counts what runs add. That a run from wherever it holds
ends without a panic is a judgement, so it is said of walks as soon as it is said of their visits.

* `Account`, **`Account.Gives`**: a run without a panic, its outcome, and what it adds;
* `gives_pure`, `Gives.bind`, `Gives.mono`, `Gives.recover`: runs one after another;
* **`Account.judgement`**, `gives_runMembers`, `gives_runElements`: walks.
-/

namespace ResourceTree

open ResourceTree.Action

/-! ## Accounts -/

/-- What holds along a run, and what is counted; the numbers of workers make no difference. -/
structure Account (σ M : Type) where
  Holds : Progress σ → Prop
  tally : Progress σ → M
  nextWorker : ∀ p n, Holds p →
    Holds { p with nextWorker := n } ∧ tally { p with nextWorker := n } = tally p

namespace Account

variable {σ M α β : Type} [AddCommMonoid M] {A : Account σ M} {setting : Setting σ}
  {post : α → Prop} {post' : β → Prop} {action : Action σ α} {f : α → Action σ β} {m n : M}

/-- **A run without a panic** from any progress that the account holds of: its outcome is as `post`
says, the account holds of what it leaves, and it adds `m`. -/
def Gives (A : Account σ M) (setting : Setting σ) (post : α → Prop) (action : Action σ α)
    (m : M) : Prop :=
  ∀ p, A.Holds p → ∃ a q, action.run setting p = (.ok a, q) ∧ post a ∧ A.Holds q ∧
    A.tally q = A.tally p + m

theorem gives_pure {a : α} (h : post a) : A.Gives setting post (pure a) 0 := fun p hp =>
  ⟨a, p, rfl, h, hp, (add_zero _).symm⟩

theorem Gives.bind (h : A.Gives setting post action m)
    (hf : ∀ a, post a → A.Gives setting post' (f a) n) :
    A.Gives setting post' (action >>= f) (m + n) := by
  intro p hp
  obtain ⟨a, q, hrun, ha, hq, htally⟩ := h p hp
  obtain ⟨b, r, hrun', hb, hr, htally'⟩ := hf a ha q hq
  refine ⟨b, r, run_bind_ok.mpr ⟨a, q, hrun, hrun'⟩, hb, hr, ?_⟩
  rw [htally', htally, add_assoc]

theorem Gives.mono {post' : α → Prop} (h : A.Gives setting post action m)
    (himp : ∀ a, post a → post' a) : A.Gives setting post' action m := fun p hp =>
  let ⟨a, q, hrun, ha, hq⟩ := h p hp
  ⟨a, q, hrun, himp a ha, hq⟩

theorem Gives.bind_pure (h : A.Gives setting post action m) {g : α → β}
    (hg : ∀ a, post a → post' (g a)) :
    A.Gives setting post' (action >>= fun a => pure (g a)) m :=
  add_zero m ▸ h.bind fun a ha => gives_pure (hg a ha)

theorem Gives.recover (h : A.Gives setting post action m) (handler : Crash → Action σ α) :
    A.Gives setting post (action.recover handler) m := by
  intro p hp
  obtain ⟨a, q, hrun, ha, hq⟩ := h p hp
  exact ⟨a, q, by rw [run_recover, hrun], ha, hq⟩

theorem gives_read_bind {f : Setting σ → Action σ β} (h : A.Gives setting post' (f setting) m) :
    A.Gives setting post' (read >>= f) m := h

theorem gives_handles_bind {f : Handles → Action σ α}
    (h : ∀ p, A.Holds p → A.Gives setting post (f p.store.handles) m) :
    A.Gives setting post (handles >>= f) m := fun p hp => h p hp p hp

theorem gives_nextWorker : A.Gives setting (fun _ => True) Action.nextWorker 0 := fun p hp =>
  let ⟨hholds, htally⟩ := A.nextWorker p (p.nextWorker + 1) hp
  ⟨p.nextWorker, _, rfl, trivial, hholds, htally.trans (add_zero _).symm⟩

theorem Gives.always (h : A.Gives setting post action m) (hA : ∀ p, A.Holds p) :
    Always setting post action := by
  intro p b q hrun
  obtain ⟨a, q', hgives, ha, -⟩ := h p (hA p)
  cases hgives.symm.trans hrun
  exact ha

/-! ## Walks -/

/-- **That a run gives something is a judgement.** -/
def judgement (A : Account σ M) : Judgement σ M where
  Says := A.Gives
  says_pure h := gives_pure h
  says_bind_always := by
    intro _ _ _ _ _ _ _ _ _ _ halways h hf p hp
    obtain ⟨a, q, hrun, ha, hq, htally⟩ := h p hp
    obtain ⟨b, r, hrun', hb, hr, htally'⟩ := hf a (halways p a q hrun) q hq
    refine ⟨b, r, run_bind_ok.mpr ⟨a, q, hrun, hrun'⟩, hb ha, hr, ?_⟩
    rw [htally', htally, add_assoc]
  says_read_bind h := gives_read_bind h
  says_nextWorker := gives_nextWorker
  says_branch h := h.recover _

section Members

variable {visit : Value → Visit σ} {place : Place} {entries : List (String × Value)}
  {post : String × Value → Option Value → Prop}

open Place (Collects Lists)

/-- **The members of a dictionary**, visited by one worker or as tasks, in any order. -/
theorem gives_runMembers {rw : Rewrite σ} (count : String × Value → M)
    (h : ∀ entry ∈ entries, ∀ worker, A.Gives setting (post entry)
      (visit entry.2 ((place.member entry.1).withWorker worker)) (count entry)) :
    A.Gives setting (Collects post ∅ (Dict.inKeyOrder entries))
      (rw.runMembers place (entries.map (Prod.map id visit)))
      ((Dict.inKeyOrder entries).map count).sum := A.judgement.says_runMembers count h

/-- **The elements of a list**, visited one after another. -/
theorem gives_runElements {items : List Value} {post : Value × Nat → Option Value → Prop}
    (count : Value × Nat → M) (index : Nat)
    (h : ∀ element : Value × Nat, element.1 ∈ items →
      A.Gives setting (post element) (visit element.1 (place.element element.2)) (count element)) :
    A.Gives setting (Lists post (items.zipIdx index)) (place.runElements index (items.map visit))
      ((items.zipIdx index).map count).sum := A.judgement.says_runElements count index h

/-! ### Visits that add nothing -/

theorem gives_runMembers_zero {rw : Rewrite σ}
    (h : ∀ entry ∈ entries, ∀ worker, A.Gives setting (post entry)
      (visit entry.2 ((place.member entry.1).withWorker worker)) 0) :
    A.Gives setting (Collects post ∅ (Dict.inKeyOrder entries))
      (rw.runMembers place (entries.map (Prod.map id visit))) 0 :=
  A.judgement.says_runMembers_zero h

theorem gives_runElements_zero {items : List Value} {post : Value × Nat → Option Value → Prop}
    (index : Nat)
    (h : ∀ element : Value × Nat, element.1 ∈ items →
      A.Gives setting (post element) (visit element.1 (place.element element.2)) 0) :
    A.Gives setting (Lists post (items.zipIdx index))
      (place.runElements index (items.map visit)) 0 :=
  A.judgement.says_runElements_zero index h

end Members

end Account

end ResourceTree
