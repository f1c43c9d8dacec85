import ResourceTree.Proofs.Walk.Safe

/-!
# Reports — where the diagnostics of a walk come from

An action reports what it adds to the diagnostics, and a panic that breaks it off is reported where
it is caught. A walk is asked what it reports node by node: every node that it meets has a path from
the root of the walk, and a value that is visited in the stead of a node stands at the path of that
node.

* `Diagnostic.panicked`; `path_member`, `path_element`, …: paths of places;
* **`Action.Reports`**: an action whose diagnostics are all told of;
* `reports_pure`, `Reports.bind`, `Reports.andFinally`, `reports_foldlM`: the ways to build actions;
* `reports_record`, `reports_modifyGet`, `reports_resolveFile_bind`, `reports_perform`: the smallest
  ones;
* **`reports`**, `reports_runElements`: walks over members and elements;
* **`Met`**: the nodes that a walk meets;
* `Rewrite.Reporting`, `reports_visitUsing`, **`Rewrite.reports_run`**: walks of rewrites.
-/

namespace ResourceTree

/-- What is said of a panic that was caught while a root entry was visited. -/
def panicText (name : String) : String := s!"panic while compiling '{name}'"

/-- The diagnostic of a panic that was caught. -/
def Diagnostic.panicked (path name : String) : Diagnostic := ⟨.instantiation, path, panicText name⟩

/-- The file that a text names, marked or not. -/
def namedFile (text : String) : String := (Reserved.afterMark? Reserved.fileMark text).getD text

/-- **What a load says**: the error or the panic that it fails with, what it reports itself, and
files that it asks for and that are missing. -/
inductive Loading.Says {σ α : Type} (setting : Setting σ) :
    Loading α → Diagnostic.Kind → String → Prop where
  | failed (e : ResourceError) : Says setting (.failed (.error e)) .instantiation e.message
  | panicked (p : Panic) (name : String) :
      Says setting (.failed (.panic p)) .instantiation (panicText name)
  | report (message : String) (next : Loading α) :
      Says setting (.report message next) .instantiation message
  | missing {path : String} {e : ResourceError} (next : Option Path → Loading α)
      (missing : setting.files.canonicalize (setting.basePath.join (namedFile path)) = .error e) :
      Says setting (.file path next) .resolution s!"missing file '{namedFile path}': {e.message}"
  | afterReport {message text : String} {next : Loading α} {kind : Diagnostic.Kind}
      (later : Says setting next kind text) : Says setting (.report message next) kind text
  | afterFile {path text : String} {next : Option Path → Loading α} {answer : Option Path}
      {kind : Diagnostic.Kind} (later : Says setting (next answer) kind text) :
      Says setting (.file path next) kind text
  | afterReference {name text : String} {next : Handle → Loading α} {h : Handle}
      {kind : Diagnostic.Kind} (later : Says setting (next h) kind text) :
      Says setting (.reference name next) kind text

theorem Step.render_cons (step : Step) (path : List Step) :
    render (step :: path) = step.text ++ render path := by
  simp [render, String.join_cons]

theorem Step.render_member (name : String) : render [.member name] = "/" ++ name := by
  rw [render_cons]
  exact String.append_empty

namespace Place

variable (place : Place)

@[simp] theorem path_root (worker : Nat) : (root worker).path = [] := rfl

@[simp] theorem path_member (name : String) :
    (place.member name).path = place.path ++ [.member name] := List.reverse_cons

@[simp] theorem path_element (index : Nat) :
    (place.element index).path = place.path ++ [.element index] := List.reverse_cons

@[simp] theorem path_deeper : place.deeper.path = place.path := rfl

@[simp] theorem path_withWorker (worker : Nat) : (place.withWorker worker).path = place.path := rfl

@[simp] theorem path_inScope (scope : Option (Dict Value)) :
    (place.inScope scope).path = place.path := rfl

end Place

namespace Action

variable {σ α β : Type} {before middle after inv : Progress σ → Prop} {told : Diagnostic → Prop}
  {setting : Setting σ} {post : α → Prop} {post' : β → Prop} {action : Action σ α}
  {f : α → Action σ β}

/-- **A run from `p` to `q` whose diagnostics are told of**: those that it adds, and that of the
panic that breaks it off. What holds in the end is `after`. -/
structure Reported (after : Progress σ → Prop) (told : Diagnostic → Prop) (post : α → Prop)
    (p : Progress σ) (r : Except Crash α) (q : Progress σ) : Prop where
  kept : after q
  added : ∀ e ∈ q.errors, e ∈ p.errors ∨ told e
  outcome : ∀ a, r = .ok a → post a
  panic : ∀ crash, r = .error crash → ∀ name, told (.panicked crash.path name)

theorem Reported.of_errors {p p' q : Progress σ} {r : Except Crash α}
    (h : Reported after told post p' r q) (herrors : p'.errors = p.errors) :
    Reported after told post p r q := ⟨h.kept, herrors ▸ h.added, h.outcome, h.panic⟩

/-- **An action whose diagnostics are told of**, wherever `before` holds. -/
def Reports (before after : Progress σ → Prop) (told : Diagnostic → Prop) (setting : Setting σ)
    (post : α → Prop) (action : Action σ α) : Prop :=
  ∀ p r q, before p → action.run setting p = (r, q) → Reported after told post p r q

/-! ## One after the other -/

theorem reports_pure {a : α} (h : post a) : Reports inv inv told setting post (pure a) := by
  intro p r q hp hrun
  cases hrun
  exact ⟨hp, fun _ he => .inl he, fun _ ha => Except.ok.inj ha ▸ h, nofun⟩

theorem reports_throw {crash : Crash} (h : ∀ name, told (.panicked crash.path name)) :
    Reports inv inv told setting post (throw crash) := by
  intro p r q hp hrun
  cases hrun
  refine ⟨hp, fun _ he => .inl he, nofun, ?_⟩
  rintro _ ⟨⟩
  exact h

theorem reports_crash {place : Place} (panic : Panic)
    (h : ∀ name, told (.panicked place.pathText name)) :
    Reports inv inv told setting post (crash place panic) := reports_throw h

theorem Reports.mono {other : α → Prop} (h : Reports before after told setting post action)
    (himp : ∀ a, post a → other a) : Reports before after told setting other action := by
  intro p r q hp hrun
  have hreported := h p r q hp hrun
  exact ⟨hreported.kept, hreported.added, fun a ha => himp a (hreported.outcome a ha),
    hreported.panic⟩

theorem Reports.kept (h : Reports before middle told setting post action)
    (hkept : ∀ p, middle p → after p) : Reports before after told setting post action := by
  intro p r q hp hrun
  have hreported := h p r q hp hrun
  exact ⟨hkept q hreported.kept, hreported.added, hreported.outcome, hreported.panic⟩

theorem Reports.and_always {always : α → Prop} (h : Reports before after told setting post action)
    (halways : Always setting always action) :
    Reports before after told setting (fun a => post a ∧ always a) action := by
  intro p r q hp hrun
  have hreported := h p r q hp hrun
  refine ⟨hreported.kept, hreported.added, fun a ha => ⟨hreported.outcome a ha, ?_⟩,
    hreported.panic⟩
  exact halways p a q (ha ▸ hrun)

theorem always_run (action : Action σ α) :
    Always setting (fun a => ∃ p q, action.run setting p = (.ok a, q)) action :=
  fun p _ q hrun => ⟨p, q, hrun⟩

/-- What holds between two actions has to hold after the second, where the first breaks off. -/
theorem Reports.bind_kept (h : Reports before middle told setting post action)
    (hkept : ∀ p, middle p → after p)
    (hf : ∀ a, post a → Reports middle after told setting post' (f a)) :
    Reports before after told setting post' (action >>= f) := by
  intro p r q hp hrun
  rw [run_bind] at hrun
  cases haction : action.run setting p with
  | mk outcome p' =>
    have hfirst := h p outcome p' hp haction
    rw [haction] at hrun
    cases outcome with
    | error crash =>
      cases hrun
      refine ⟨hkept _ hfirst.kept, hfirst.added, nofun, ?_⟩
      rintro _ ⟨⟩
      exact hfirst.panic crash rfl
    | ok a =>
      have hsecond := hf a (hfirst.outcome a rfl) p' r q hfirst.kept hrun
      refine ⟨hsecond.kept, fun e he => ?_, hsecond.outcome, hsecond.panic⟩
      exact (hsecond.added e he).elim (hfirst.added e) .inr

theorem Reports.bind (h : Reports inv inv told setting post action)
    (hf : ∀ a, post a → Reports inv inv told setting post' (f a)) :
    Reports inv inv told setting post' (action >>= f) := h.bind_kept (fun _ hp => hp) hf

theorem Reports.bind_pure (h : Reports inv inv told setting post action) {g : α → β}
    (hg : ∀ a, post a → post' (g a)) :
    Reports inv inv told setting post' (action >>= fun a => pure (g a)) :=
  h.bind fun a ha => reports_pure (hg a ha)

theorem reports_read_bind {f : Setting σ → Action σ β}
    (h : Reports before after told setting post' (f setting)) :
    Reports before after told setting post' (read >>= f) := h

theorem reports_store_bind {f : Store σ → Action σ β}
    (h : ∀ p, before p → Reports before after told setting post' (f p.store)) :
    Reports before after told setting post' (store >>= f) := fun p r q hp => h p hp p r q hp

theorem reports_handles_bind {f : Handles → Action σ β}
    (h : ∀ p, before p → Reports before after told setting post' (f p.store.handles)) :
    Reports before after told setting post' (handles >>= f) := fun p r q hp => h p hp p r q hp

/-- What is done finally starts from what an action leaves, also where it breaks off. -/
theorem Reports.andFinally (h : Reports before middle told setting post action)
    {next : Action σ Unit} (hnext : ∀ p, middle p → ∃ q, next.run setting p = (.ok (), q) ∧
      after q ∧ q.errors = p.errors) :
    Reports before after told setting post (action.andFinally next) := by
  intro p r q hp hrun
  unfold Action.andFinally at hrun
  rw [run_bind, run_recover] at hrun
  cases haction : action.run setting p with
  | mk outcome p' =>
    have hfirst := h p outcome p' hp haction
    obtain ⟨q', hafter, hq', herrors⟩ := hnext p' hfirst.kept
    have hadded : ∀ e ∈ q'.errors, e ∈ p.errors ∨ told e := herrors ▸ hfirst.added
    rw [haction] at hrun
    cases outcome with
    | error crash =>
      dsimp only at hrun
      rw [run_bind, hafter] at hrun
      cases hrun
      refine ⟨hq', hadded, nofun, ?_⟩
      rintro _ ⟨⟩
      exact hfirst.panic crash rfl
    | ok a =>
      dsimp only at hrun
      rw [run_bind, hafter] at hrun
      cases hrun
      exact ⟨hq', hadded, fun b hb => Except.ok.inj hb ▸ hfirst.outcome a rfl, nofun⟩

theorem reports_foldlM {f : β → α → Action σ β} (xs : List α)
    (h : ∀ b, ∀ x ∈ xs, Reports inv inv told setting (fun _ => True) (f b x)) (b : β) :
    Reports inv inv told setting (fun _ => True) (xs.foldlM f b) := by
  induction xs generalizing b with
  | nil => exact reports_pure trivial
  | cons x xs ih =>
    rw [List.foldlM_cons]
    exact (h b x List.mem_cons_self).bind fun next _ =>
      ih (fun b y hy => h b y (List.mem_cons_of_mem x hy)) next

theorem reports_forM {f : α → Action σ PUnit} (xs : List α)
    (h : ∀ x ∈ xs, Reports inv inv told setting (fun _ => True) (f x)) :
    Reports inv inv told setting (fun _ => True) (xs.forM f) := by
  induction xs with
  | nil => exact reports_pure trivial
  | cons x xs ih =>
    exact (h x List.mem_cons_self).bind fun _ _ => ih fun y hy => h y (List.mem_cons_of_mem x hy)

/-! ## The smallest actions -/

theorem reports_modifyGet {g : Progress σ → α × Progress σ} (hg : ∀ p, before p → after (g p).2)
    (herrors : ∀ p, (g p).2.errors = p.errors) :
    Reports before after told setting (fun _ => True) (modifyGet g : Action σ α) := by
  intro p r q hp hrun
  rw [run_modifyGet] at hrun
  cases hrun
  refine ⟨hg p hp, fun e he => .inl ?_, fun _ _ => trivial, nofun⟩
  rwa [herrors] at he

theorem reports_nextWorker (hinv : Progress.Steady inv) :
    Reports inv inv told setting (fun _ => True) (nextWorker : Action σ Nat) :=
  reports_modifyGet (fun p => hinv p .worker) fun _ => rfl

theorem reports_record (hinv : Progress.Steady inv) {d : Diagnostic} (h : told d) :
    Reports inv inv told setting (fun _ => True) (record d : Action σ Unit) := by
  intro p r q hp hrun
  cases hrun
  refine ⟨hinv p (.diagnostic d) hp, fun e he => ?_, fun _ _ => trivial, nofun⟩
  rcases Array.mem_push.mp he with he | rfl
  · exact .inl he
  · exact .inr h

theorem reports_addError (hinv : Progress.Steady inv) {place : Place} {kind : Diagnostic.Kind}
    {message : String} (h : told ⟨kind, place.pathText, message⟩) :
    Reports inv inv told setting (fun _ => True) (addError place kind message : Action σ Unit) :=
  reports_record hinv h

theorem reports_addError_pure (hinv : Progress.Steady inv) {place : Place}
    {kind : Diagnostic.Kind} {message : String} (h : told ⟨kind, place.pathText, message⟩) {a : α}
    (ha : post a) :
    Reports inv inv told setting post (addError place kind message >>= fun _ => pure a) :=
  (reports_addError hinv h).bind_pure fun _ _ => ha

section Handles

variable (hkeeps : ∀ p handles references, inv p →
  inv { p with store := { p.store with handles }, references })

include hkeeps

theorem reports_reference (name : String) :
    Reports inv inv told setting (fun _ => True) (reference name : Action σ Handle) := by
  refine reports_modifyGet (fun p hp => ?_) fun p => ?_
  · split
    · exact hp
    · exact hkeeps p _ _ hp
  · split <;> rfl

theorem reports_publish (name : String) (v : Value) :
    Reports inv inv told setting (fun _ => True) (publish name v : Action σ Unit) := by
  refine reports_modifyGet (fun p hp => ?_) fun p => ?_ <;> dsimp only
  · split <;> exact hkeeps p _ _ hp
  · split <;> rfl

end Handles

theorem reports_resolveFile_bind (hinv : Progress.Steady inv) {dir : Path} {raw : String}
    {f : Except ResourceError Path → Action σ β}
    (herror : ∀ e, setting.files.canonicalize (dir.join raw) = .error e →
      Reports inv inv told setting post' (f (.error e)))
    (hok : ∀ path, setting.files.canonicalize (dir.join raw) = .ok path →
      Reports inv inv told setting post' (f (.ok path))) :
    Reports inv inv told setting post' (resolveFile dir raw >>= f) := by
  intro p r q hp hrun
  rw [run_bind, run_resolveFile] at hrun
  cases hfound : setting.files.canonicalize (dir.join raw) with
  | error e =>
    rw [hfound] at hrun
    exact herror e hfound p r q hp hrun
  | ok path =>
    rw [hfound] at hrun
    exact (hok path hfound _ r q (hinv p (.file path) hp) hrun).of_errors rfl

/-- **A load** says all that it says at its place. -/
theorem reports_perform (hinv : Progress.Steady inv) {place : Place} {loading : Loading α}
    (h : ∀ kind message, loading.Says setting kind message → told ⟨kind, place.pathText, message⟩)
    (href : ∀ name, Reports inv inv told setting (fun _ => True) (reference name)) :
    Reports inv inv told setting
      (fun result => ∀ e, result = .error e → loading.Says setting .instantiation e.message)
      (loading.perform place) := by
  induction loading with
  | done result => exact reports_pure nofun
  | failed failure =>
    cases failure with
    | error e =>
      refine reports_pure ?_
      rintro _ ⟨⟩
      exact .failed e
    | panic p => exact reports_crash p fun name => h _ _ (.panicked p name)
  | report message next ih =>
    refine (reports_addError hinv (h _ _ (.report message next))).bind fun _ _ => ?_
    exact (ih fun kind text hload => h kind text (.afterReport hload)).mono fun _ hpost e he =>
      .afterReport (hpost e he)
  | file path next ih =>
    have hnext : ∀ answer, Reports inv inv told setting
        (fun result => ∀ e, result = .error e →
          (Loading.file path next).Says setting .instantiation e.message)
        ((next answer).perform place) := fun answer =>
      (ih answer fun kind text hload => h kind text (.afterFile hload)).mono fun _ hpost e he =>
        .afterFile (hpost e he)
    unfold Loading.perform
    refine reports_read_bind (reports_resolveFile_bind hinv (fun e he => ?_) fun found _ => ?_)
    · exact (reports_addError hinv (h _ _ (.missing next he))).bind fun _ _ => hnext none
    · exact hnext (some found)
  | reference name next ih =>
    refine (href name).bind fun handle _ => ?_
    exact (ih handle fun kind text hload => h kind text (.afterReference hload)).mono
      fun _ hpost e he => .afterReference (hpost e he)

/-! ## Members and elements -/

/-- **That diagnostics are told of is a judgement**, which counts nothing and says nothing of
outcomes: a member whose panic was caught is dropped. -/
def reports (inv : Progress σ → Prop) (hinv : Progress.Steady inv) (told : Diagnostic → Prop) :
    Judgement σ Nat where
  Says setting _ action _ := Reports inv inv told setting (fun _ => True) action
  says_pure _ := reports_pure trivial
  says_bind_always halways h hf := (h.and_always halways).bind fun a ha => hf a ha.2
  says_read_bind := reports_read_bind
  says_nextWorker := reports_nextWorker hinv
  says_branch h p r q hp hrun := by
    rw [Place.runBranch, run_recover] at hrun
    split at hrun
    · next result p' haction =>
      cases hrun
      exact h p _ q hp haction
    · next crash p' haction =>
      have hfirst := h p _ p' hp haction
      cases hrun
      refine ⟨hinv p' (.diagnostic _) hfirst.kept, fun e he => ?_, fun _ _ => trivial, nofun⟩
      rcases Array.mem_push.mp he with he | rfl
      · exact hfirst.added e he
      · exact .inr (hfirst.panic crash rfl _)

variable {visit : Value → Visit σ}

theorem reports_runMembers (hinv : Progress.Steady inv) {rw : Rewrite σ} {place : Place}
    {entries : List (String × Value)} (h : ∀ entry ∈ entries, ∀ worker,
      Reports inv inv told setting (fun _ => True)
        (visit entry.2 ((place.member entry.1).withWorker worker))) :
    Reports inv inv told setting (fun _ => True)
      (rw.runMembers place (entries.map (Prod.map id visit))) := by
  have hvisits : ∀ entry ∈ entries, ∀ worker, (reports inv hinv told).Says setting (fun _ => True)
      (visit entry.2 ((place.member entry.1).withWorker worker)) 0 := h
  exact (reports inv hinv told).says_runMembers_zero hvisits

theorem reports_runElements {place : Place} {items : List Value} (index : Nat)
    (h : ∀ i v, items[i]? = some v → Reports inv inv told setting (fun _ => True)
      (visit v (place.element (index + i)))) :
    Reports inv inv told setting (fun _ => True) (place.runElements index (items.map visit)) := by
  induction items generalizing index with
  | nil => exact reports_pure trivial
  | cons item rest ih =>
    refine (h 0 item rfl).bind fun _ _ => (ih (index + 1) fun i v hv => ?_).bind fun _ _ =>
      reports_pure trivial
    have hnext := h (i + 1) v hv
    rwa [← Nat.add_assoc, Nat.add_right_comm] at hnext

end Action

/-! ## Walks -/

section Walks

variable {σ : Type} {inv : Progress σ → Prop} {told : Diagnostic → Prop} {setting : Setting σ}
  {stands : List Step → Value → Value → Prop} {root : Value} {rw : Rewrite σ}
  {again : Value → Visit σ}

open ResourceTree.Action

/-- **The nodes that a walk meets**, each at its path from the root of the walk: members, elements,
and values that stand for a node at its path. -/
inductive Met (stands : List Step → Value → Value → Prop) (root : Value) : List Step → Value → Prop
    where
  | root : Met stands root [] root
  | member {path : List Step} {d : Dict Value} {name : String} {v : Value}
      (dict : Met stands root path (.dict d)) (entry : (name, v) ∈ d.entries) :
      Met stands root (path ++ [.member name]) v
  | element {path : List Step} {items : List Value} {i : Nat} {v : Value}
      (list : Met stands root path (.list items)) (item : items[i]? = some v) :
      Met stands root (path ++ [.element i]) v
  | stead {path : List Step} {v v' : Value} (node : Met stands root path v)
      (standing : stands path v v') : Met stands root path v'

/-- A dictionary of the results of the members of another one, but for some. -/
def Rewrite.Makes (rw : Rewrite σ) (setting : Setting σ) (place : Place) (without : List String)
    (d out : Dict Value) : Prop :=
  ∃ again p q, (rw.runMembers place ((d.entries.filter fun entry =>
    !without.contains entry.1).map (Prod.map id (rw.visitUsing again)))).run setting p =
      (.ok out, q)

/-- What a plan for a dictionary visits in its stead stands for it, and what it goes on with when
its members were visited reports. -/
def DictPlan.Reporting (inv : Progress σ → Prop) (told : Diagnostic → Prop) (setting : Setting σ)
    (stands : Value → Prop)
    (makes : List String → Option (Dict Value) → Dict Value → Prop) : DictPlan σ → Prop
  | .drop => True
  | .revisit d => stands (.dict d)
  | .members without scope finish => ∀ out, makes without scope out →
    Reports inv inv told setting (fun _ => True) (finish out)

def OtherPlan.Reporting (inv : Progress σ → Prop) (told : Diagnostic → Prop) (setting : Setting σ)
    (stands : Value → Prop) : OtherPlan σ → Prop
  | .revisit v => stands v
  | .unfold d finish =>
    stands (.dict d) ∧ ∀ out, Reports inv inv told setting (fun _ => True) (finish out)
  | _ => True

/-- **A rewrite that reports at every node that it meets.** What breaks off where no revisit is left
is told of, too, if there are revisits at all. -/
structure Rewrite.Reporting (rw : Rewrite σ) (inv : Progress σ → Prop) (told : Diagnostic → Prop)
    (setting : Setting σ) (stands : List Step → Value → Value → Prop) (root : Value) : Prop where
  steady : Progress.Steady inv
  onDict : ∀ place d, Met stands root place.path (.dict d) → Reports inv inv told setting
    (DictPlan.Reporting inv told setting (stands place.path (.dict d)) fun without scope =>
      rw.Makes setting (place.inScope scope) without d) (rw.onDict place d)
  onOther : ∀ place v, Met stands root place.path v → Reports inv inv told setting
    (OtherPlan.Reporting inv told setting (stands place.path v)) (rw.onOther place v)
  exhausted : (∃ path v v', stands path v v') → ∀ path v, Met stands root path v → ∀ name,
    told (.panicked (Step.render path) name)

/-- A visit that reports wherever it is made of a node. -/
def ReportsVisit (inv : Progress σ → Prop) (told : Diagnostic → Prop) (setting : Setting σ)
    (stands : List Step → Value → Value → Prop) (root : Value) (visit : Value → Visit σ)
    (v : Value) : Prop :=
  ∀ place : Place, Met stands root place.path v →
    Reports inv inv told setting (fun _ => True) (visit v place)

namespace Rewrite

variable (hrw : rw.Reporting inv told setting stands root)
  (hagain : (∃ path v v', stands path v v') →
    ∀ v, ReportsVisit inv told setting stands root again v)

include hrw hagain

theorem reports_visitDict {d : Dict Value}
    (h : ∀ entry ∈ d.entries,
      ReportsVisit inv told setting stands root (rw.visitUsing again) entry.2)
    {place : Place} (hplace : Met stands root place.path (.dict d)) :
    Reports inv inv told setting (fun _ => True)
      (rw.visitDict again d (memberVisits rw again d.entries) place) := by
  refine (hrw.onDict place d hplace).bind fun plan hplan => ?_
  cases plan with
  | drop => exact reports_pure trivial
  | revisit d' => exact hagain ⟨_, _, _, hplan⟩ _ place.deeper (hplace.stead hplan)
  | members without scope finish =>
    have hopen : (memberVisits rw again d.entries).filter (fun branch => !without.contains branch.1)
        = (d.entries.filter fun entry => !without.contains entry.1).map
          (Prod.map id (rw.visitUsing again)) := by
      rw [memberVisits_eq, List.filter_map]
      rfl
    dsimp only
    rw [hopen]
    have hmembers : Reports inv inv told setting (fun _ => True)
        (rw.runMembers (place.inScope scope) ((d.entries.filter fun entry =>
          !without.contains entry.1).map (Prod.map id (rw.visitUsing again)))) := by
      refine reports_runMembers hrw.steady fun entry hentry worker => ?_
      have hin := List.mem_of_mem_filter hentry
      refine h entry hin _ ?_
      rw [Place.path_withWorker, Place.path_member, Place.path_inScope]
      exact hplace.member hin
    refine (hmembers.and_always (always_run _)).bind fun out hout => hplan out ?_
    obtain ⟨-, p, q, hrun⟩ := hout
    exact ⟨again, p, q, hrun⟩

theorem reports_visitOther {v : Value} {place : Place} (hplace : Met stands root place.path v)
    {elements : Option (List (Visit σ))}
    (helements : ∀ visits ∈ elements, Reports inv inv told setting (fun _ => True)
      (place.runElements 0 visits)) :
    Reports inv inv told setting (fun _ => True) (rw.visitOther again v elements place) := by
  refine (hrw.onOther place v hplace).bind fun plan hplan => ?_
  cases plan with
  | drop => exact reports_pure trivial
  | keep w => exact reports_pure trivial
  | revisit w => exact hagain ⟨_, _, _, hplan⟩ w place.deeper (hplace.stead hplan)
  | unfold d finish =>
    obtain ⟨hstands, hfinish⟩ := hplan
    have hmembers : Reports inv inv told setting (fun _ => True)
        (rw.runMembers place.deeper (d.entries.map (Prod.map id again))) := by
      refine reports_runMembers hrw.steady fun entry hentry worker => ?_
      refine hagain ⟨_, _, _, hstands⟩ entry.2 _ ?_
      rw [Place.path_withWorker, Place.path_member, Place.path_deeper]
      exact (hplace.stead hstands).member hentry
    exact hmembers.bind fun out _ => hfinish out
  | elements =>
    cases elements with
    | none => exact reports_pure trivial
    | some visits => exact (helements visits rfl).bind_pure fun _ _ => trivial

theorem reports_visitUsing (v : Value) :
    ReportsVisit inv told setting stands root (rw.visitUsing again) v := by
  induction v using Value.induct with
  | dict d ih =>
    intro place hplace
    rw [visitUsing]
    exact reports_visitDict hrw hagain ih hplace
  | list items ih =>
    intro place hplace
    rw [visitUsing]
    refine reports_visitOther hrw hagain hplace fun visits hvisits => ?_
    obtain rfl := Option.some.inj hvisits
    rw [elementVisits_eq]
    refine reports_runElements 0 fun i item hitem => ih item (List.mem_of_getElem? hitem) _ ?_
    rw [Place.path_element, Nat.zero_add]
    exact hplace.element hitem
  | _ =>
    intro place hplace
    rw [visitUsing]
    · exact reports_visitOther hrw hagain hplace (by simp)
    · simp
    · simp

omit hagain

/-- **Every visit reports**, with however many levels of revisits left. -/
theorem reports_visitWithin (levels : Nat) (v : Value) :
    ReportsVisit inv told setting stands root (rw.visitWithin levels) v := by
  induction levels generalizing v with
  | zero =>
    refine reports_visitUsing hrw (fun hrevisits v place hplace => ?_) v
    exact reports_crash _ fun name => hrw.exhausted hrevisits place.path v hplace name
  | succ levels ih => exact reports_visitUsing hrw (fun _ => ih) v

end Rewrite

/-- **The walk over a whole dictionary reports** at the nodes that it meets. -/
theorem Rewrite.reports_run {d : Dict Value}
    (hrw : rw.Reporting inv told setting stands (.dict d)) (levels : Nat) :
    Reports inv inv told setting (fun _ => True) (rw.run levels d) := by
  refine (reports_nextWorker hrw.steady).bind fun worker _ =>
    (reports_visitWithin hrw levels _ (Place.root worker) .root).bind fun out _ => ?_
  cases out with
  | none => exact reports_pure trivial
  | some v =>
    cases v with
    | dict d => exact reports_pure trivial
    | _ => exact reports_handles_bind fun _ _ => reports_pure trivial

end Walks

end ResourceTree
