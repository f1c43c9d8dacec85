import ResourceTree.Json.Source
import ResourceTree.Proofs.Compile.Run
import ResourceTree.Proofs.Files.Path

/-!
# Traced actions — what a run looks at is recorded

A run that adds no diagnostic looks at no other file than those it records: it finds them, or reads
sources from them. Where other files show the same of these, it runs the same way.

* `FileView.Matches`: two views show the same of some files;
* `Progress.Grows`: diagnostics and files are only added;
* **`Action.TracedTo`**, `Action.Traced`: an action whose runs are like that;
* `Action.LoudTo`, `Action.Loud`: an action that adds a diagnostic;
* **`traced_bind`**, `traced_recover`, `traced_foldlM`: one action after another;
* `traced_resolveFile_bind`, `traced_source_bind`: what goes on with a file.
-/

namespace ResourceTree

/-! ## Views -/

namespace FileView

/-- The source of a file as a dictionary. -/
def source (v : FileView) (path : Path) : Except ResourceError (Dict Value) := do
  Json.parseSource (← v.readText path)

theorem source_pair (v : FileView) (path : Path) :
    (do let text ← v.readText path; let d ← Json.parseSource text; return (d, path) :
      Except ResourceError (Dict Value × Path)) = (v.source path).map (·, path) := by
  unfold source
  cases v.readText path with
  | error e => rfl
  | ok text =>
    show Except.bind (Json.parseSource text) _ = Except.map _ (Json.parseSource text)
    cases Json.parseSource text <;> rfl

/-- Another view shows the same of some files: what is found is found there too, and a source
reads the same. What is no source may differ. -/
structure Matches (v w : FileView) (files : List Path) : Prop where
  found : ∀ {p x : Path}, v.canonicalize p = .ok x → x.Among files → w.canonicalize p = .ok x
  source : ∀ {x : Path} {d : Dict Value}, v.source x = .ok d → x.Among files → w.source x = .ok d

theorem Matches.mono {v w : FileView} {files more : List Path} (h : v.Matches w more)
    (hsub : ∀ x : Path, x.Among files → x.Among more) : v.Matches w files :=
  ⟨fun hfound hx => h.found hfound (hsub _ hx), fun hsource hx => h.source hsource (hsub _ hx)⟩

end FileView

/-- The setting over other files. -/
def Setting.withFiles {σ : Type} (s : Setting σ) (files : FileView) : Setting σ := { s with files }

/-! ## Progress -/

/-- Diagnostics and files are only added. -/
structure Progress.Grows {σ : Type} (p q : Progress σ) : Prop where
  errors : p.errors.size ≤ q.errors.size
  files : ∀ x : Path, x.Among p.files → x.Among q.files

theorem Progress.Grows.refl {σ : Type} (p : Progress σ) : p.Grows p := ⟨Nat.le_refl _, fun _ h => h⟩

theorem Progress.Grows.trans {σ : Type} {p q r : Progress σ} (h : p.Grows q) (h' : q.Grows r) :
    p.Grows r :=
  ⟨h.errors.trans h'.errors, fun x hx => h'.files x (h.files x hx)⟩

theorem Progress.Grows.size_eq {σ : Type} {p q r : Progress σ} (h : p.Grows q) (h' : q.Grows r)
    (herrors : r.errors.size = p.errors.size) : q.errors.size = p.errors.size :=
  Nat.le_antisymm (h'.errors.trans herrors.le) h.errors

namespace Action

variable {σ α β : Type} {post : α → Prop} {post' : β → Prop} {action : Action σ α}
  {f : α → Action σ β}

/-- **A traced run** from `p` to `q`: it only added diagnostics and files, its outcome is as `post`
says, and if it added no diagnostic, it is the same over other files that match in all that is
recorded in the end. -/
structure TracedRun (post : α → Prop) (action : Action σ α) (setting : Setting σ)
    (p : Progress σ) (result : Except Crash α) (q : Progress σ) : Prop where
  grows : p.Grows q
  outcome : ∀ a, result = .ok a → post a
  again : q.errors.size = p.errors.size → ∀ w, setting.files.Matches w q.files →
    action.run (setting.withFiles w) p = (result, q)

/-- **An action whose runs are traced**, with one worker. -/
def TracedTo (post : α → Prop) (action : Action σ α) : Prop :=
  ∀ setting p result q, setting.fanOut = none → action.run setting p = (result, q) →
    TracedRun post action setting p result q

/-- A traced action, whatever its outcome. -/
abbrev Traced (action : Action σ α) : Prop := TracedTo (fun _ => True) action

/-- An action that adds a diagnostic. -/
def LoudTo (post : α → Prop) (action : Action σ α) : Prop :=
  ∀ setting p result q, setting.fanOut = none → action.run setting p = (result, q) →
    p.Grows q ∧ (∀ a, result = .ok a → post a) ∧ p.errors.size < q.errors.size

/-- An action that adds a diagnostic, whatever its outcome. -/
abbrev Loud (action : Action σ α) : Prop := LoudTo (fun _ => True) action

/-- A run that adds a diagnostic promises nothing about other files. -/
theorem TracedRun.of_lt {setting : Setting σ} {p q : Progress σ} {r : Except Crash α}
    (hgrows : p.Grows q) (hpost : ∀ a, r = .ok a → post a) (hmore : p.errors.size < q.errors.size) :
    TracedRun post action setting p r q :=
  ⟨hgrows, hpost, fun herrors => absurd herrors hmore.ne'⟩

theorem LoudTo.traced (h : LoudTo post action) : TracedTo post action :=
  fun setting p r q hfan hrun =>
  let ⟨hgrows, hpost, hmore⟩ := h setting p r q hfan hrun
  .of_lt hgrows hpost hmore

/-! ## One after the other -/

theorem traced_of_run (hgrows : ∀ setting (p : Progress σ), p.Grows (action.run setting p).2)
    (hpost : ∀ setting p a, (action.run setting p).1 = .ok a → post a)
    (hsame : ∀ setting w p, action.run (setting.withFiles w) p = action.run setting p) :
    TracedTo post action := by
  intro setting p r q _ hrun
  have hgrows := hgrows setting p
  have hpost := hpost setting p
  rw [hrun] at hgrows hpost
  exact ⟨hgrows, hpost, fun _ w _ => (hsame setting w p).trans hrun⟩

theorem traced_pure {a : α} (h : post a) : TracedTo post (pure a : Action σ α) :=
  traced_of_run (fun _ p => Progress.Grows.refl p) (fun _ _ _ ha => Except.ok.inj ha ▸ h)
    fun _ _ _ => rfl

theorem traced_throw (crash : Crash) : TracedTo post (throw crash : Action σ α) :=
  traced_of_run (fun _ p => Progress.Grows.refl p) (fun _ _ _ => nofun) fun _ _ _ => rfl

/-- A traced run that goes on with a traced run, where the whole is one after the other. -/
theorem TracedRun.andThen {whole next : Action σ β} {setting : Setting σ} {p q₁ q : Progress σ}
    {r₁ : Except Crash α} {r : Except Crash β} (h : TracedRun post action setting p r₁ q₁)
    (h' : TracedRun post' next setting q₁ r q)
    (hwhole : ∀ s, action.run s p = (r₁, q₁) → whole.run s p = next.run s q₁) :
    TracedRun post' whole setting p r q := by
  refine ⟨h.grows.trans h'.grows, h'.outcome, fun herrors w hw => ?_⟩
  -- neither part adds a diagnostic, since both together add none
  have hquiet := h.grows.size_eq h'.grows herrors
  rw [hwhole _ (h.again hquiet w (hw.mono h'.grows.files))]
  exact h'.again (herrors.trans hquiet.symm) w hw

/-- **One traced action after another is traced.** -/
theorem traced_bind (h : TracedTo post action) (hf : ∀ a, post a → TracedTo post' (f a)) :
    TracedTo post' (action >>= f) := by
  intro setting p r q hfan hrun
  rw [run_bind] at hrun
  rcases hfirst : action.run setting p with ⟨crash | a, q₁⟩
  · rw [hfirst] at hrun
    have h := h setting p _ _ hfan hfirst
    exact h.andThen (traced_throw crash setting q₁ r q hfan hrun) fun s hs => by
      rw [run_bind, hs, run_throw]
  · rw [hfirst] at hrun
    have h := h setting p _ _ hfan hfirst
    exact h.andThen (hf a (h.outcome a rfl) setting q₁ r q hfan hrun) fun s hs => by
      rw [run_bind, hs]

theorem loud_bind (h : LoudTo post action) (hf : ∀ a, post a → TracedTo post' (f a)) :
    LoudTo post' (action >>= f) := by
  intro setting p r q hfan hrun
  rw [run_bind] at hrun
  rcases hfirst : action.run setting p with ⟨crash | a, q₁⟩
  · rw [hfirst] at hrun
    cases hrun
    obtain ⟨hgrows, -, hmore⟩ := h setting p _ _ hfan hfirst
    exact ⟨hgrows, fun _ => nofun, hmore⟩
  · rw [hfirst] at hrun
    obtain ⟨hgrows, hpost, hmore⟩ := h setting p _ _ hfan hfirst
    have h' := hf a (hpost a rfl) setting q₁ r q hfan hrun
    exact ⟨hgrows.trans h'.grows, h'.outcome, hmore.trans_le h'.grows.errors⟩

theorem traced_crash (place : Place) (panic : Panic) :
    TracedTo post (crash place panic : Action σ α) := traced_throw _

/-- What is read of the setting may be anything but the files. -/
theorem traced_read_bind {f : Setting σ → Action σ β} (hsame : ∀ s w, f (s.withFiles w) = f s)
    (hf : ∀ s, TracedTo post' (f s)) : TracedTo post' (read >>= f) := by
  intro setting p r q hfan hrun
  have h := hf setting setting p r q hfan hrun
  refine ⟨h.grows, h.outcome, fun herrors w hw => ?_⟩
  show (f (setting.withFiles w)).run (setting.withFiles w) p = (r, q)
  rw [hsame]
  exact h.again herrors w hw

theorem traced_recover {handler : Crash → Action σ α} (h : action.Traced)
    (hhandler : ∀ crash, (handler crash).Traced) : (action.recover handler).Traced := by
  intro setting p r q hfan hrun
  rw [run_recover] at hrun
  rcases hfirst : action.run setting p with ⟨crash | a, q₁⟩
  · rw [hfirst] at hrun
    have h := h setting p _ _ hfan hfirst
    exact h.andThen (hhandler crash setting q₁ r q hfan hrun) fun s hs => by rw [run_recover, hs]
  · rw [hfirst] at hrun
    have h := h setting p _ _ hfan hfirst
    exact h.andThen (traced_pure trivial setting q₁ r q hfan hrun) fun s hs => by
      rw [run_recover, hs, run_pure]

theorem traced_andFinally {after : Action σ Unit} (h : action.Traced) (hafter : after.Traced) :
    (action.andFinally after).Traced :=
  traced_bind (traced_recover h fun _ => traced_bind hafter fun _ _ => traced_throw _) fun _ _ =>
    traced_bind hafter fun _ _ => traced_pure trivial

/-! ## Runs over lists -/

theorem traced_foldlM {f : β → α → Action σ β} (xs : List α)
    (h : ∀ b, ∀ x ∈ xs, (f b x).Traced) (b : β) : (xs.foldlM f b).Traced := by
  induction xs generalizing b with
  | nil => exact traced_pure trivial
  | cons x xs ih =>
    rw [List.foldlM_cons]
    exact traced_bind (h b x List.mem_cons_self) fun b' _ =>
      ih (fun b y hy => h b y (List.mem_cons_of_mem x hy)) b'

theorem traced_forM {f : α → Action σ PUnit} (xs : List α) (h : ∀ x ∈ xs, (f x).Traced) :
    (xs.forM f).Traced := by
  induction xs with
  | nil => exact traced_pure trivial
  | cons x xs ih =>
    exact traced_bind (h x List.mem_cons_self) fun _ _ =>
      ih fun y hy => h y (List.mem_cons_of_mem x hy)

/-! ## The actions of a compile -/

theorem traced_of_still (herrors : ∀ setting p, (action.run setting p).2.errors = p.errors)
    (hfiles : ∀ setting p, (action.run setting p).2.files = p.files)
    (hsame : ∀ setting w p, action.run (setting.withFiles w) p = action.run setting p) :
    action.Traced :=
  traced_of_run (fun setting p => ⟨(congrArg Array.size (herrors setting p)).ge,
    fun _ hx => (hfiles setting p).symm ▸ hx⟩) (fun _ _ _ _ => trivial) hsame

theorem traced_store : (store : Action σ (Store σ)).Traced :=
  traced_of_still (fun _ _ => rfl) (fun _ _ => rfl) fun _ _ _ => rfl

theorem traced_handles : (handles : Action σ Handles).Traced :=
  traced_of_still (fun _ _ => rfl) (fun _ _ => rfl) fun _ _ _ => rfl

theorem traced_withStore (f : Store σ → α × Store σ) : (withStore f).Traced :=
  traced_of_still (fun _ _ => rfl) (fun _ _ => rfl) fun _ _ _ => rfl

theorem traced_nextWorker : (nextWorker : Action σ Nat).Traced :=
  traced_of_still (fun _ _ => rfl) (fun _ _ => rfl) fun _ _ _ => rfl

theorem traced_withTable (f : FinishTable → α × FinishTable) :
    (Compile.withTable f : Action σ α).Traced :=
  traced_of_still (fun _ _ => rfl) (fun _ _ => rfl) fun _ _ _ => rfl

theorem traced_modifyGet {f : Progress σ → α × Progress σ}
    (herrors : ∀ p, (f p).2.errors = p.errors) (hfiles : ∀ p, (f p).2.files = p.files) :
    (modifyGet f : Action σ α).Traced :=
  traced_of_still (fun _ => herrors) (fun _ => hfiles) fun _ _ _ => rfl

theorem traced_reference (name : String) : (reference name : Action σ Handle).Traced := by
  refine traced_modifyGet (fun p => ?_) fun p => ?_ <;> split <;> rfl

theorem traced_publish (name : String) (value : Value) :
    (publish name value : Action σ Unit).Traced := by
  refine traced_modifyGet (fun p => ?_) fun p => ?_ <;> dsimp only <;> split <;> rfl

theorem loud_record (d : Diagnostic) : (record d : Action σ Unit).Loud := by
  intro setting p r q _ hrun
  cases hrun
  show p.Grows { p with errors := p.errors.push d } ∧ _ ∧ p.errors.size < (p.errors.push d).size
  rw [Array.size_push]
  exact ⟨⟨by simp, fun _ h => h⟩, fun _ _ => trivial, Nat.lt_succ_self _⟩

theorem loud_addError (place : Place) (kind : Diagnostic.Kind) (message : String) :
    (addError place kind message : Action σ Unit).Loud := loud_record _

theorem loud_addError_pure (place : Place) (kind : Diagnostic.Kind) (message : String) {a : α}
    (h : post a) : LoudTo post (do addError place kind message; return a : Action σ α) :=
  loud_bind (loud_addError place kind message) fun _ _ => traced_pure h

/-! ## Files -/

theorem run_resolveFile (dir : Path) (raw : String) (setting : Setting σ) (p : Progress σ) :
    (resolveFile dir raw).run setting p =
      match setting.files.canonicalize (dir.join raw) with
      | .error e => (.ok (.error e), p)
      | .ok path => (.ok (.ok path), { p with files := path.insertSorted p.files }) := by
  show Action.run (match setting.files.canonicalize (dir.join raw) with
    | .error e => pure (Except.error e)
    | .ok path => recordFile path >>= fun _ => pure (Except.ok path)) setting p = _
  cases setting.files.canonicalize (dir.join raw) <;> rfl

theorem grows_of_recorded {path : Path} {p q : Progress σ}
    (h : Progress.Grows { p with files := path.insertSorted p.files } q) :
    p.Grows q ∧ path.Among q.files :=
  ⟨⟨h.errors, fun x hx => h.files x hx.insertSorted⟩, h.files path Path.among_insertSorted_self⟩

/-- **A file that is resolved is recorded**; one that is not has to be reported. -/
theorem traced_resolveFile_bind {dir : Path} {raw : String}
    {f : Except ResourceError Path → Action σ β} (herror : ∀ e, LoudTo post' (f (.error e)))
    (hok : ∀ path, TracedTo post' (f (.ok path))) :
    TracedTo post' (resolveFile dir raw >>= f) := by
  intro setting p r q hfan hrun
  rw [run_bind, run_resolveFile] at hrun
  cases hfound : setting.files.canonicalize (dir.join raw) with
  | error e =>
    rw [hfound] at hrun
    obtain ⟨hgrows, hpost, hmore⟩ := herror e setting p r q hfan hrun
    exact .of_lt hgrows hpost hmore
  | ok path =>
    rw [hfound] at hrun
    have h := hok path setting _ r q hfan hrun
    obtain ⟨hgrows, hrecorded⟩ := grows_of_recorded h.grows
    refine ⟨hgrows, h.outcome, fun herrors w hw => ?_⟩
    have hfound' : (setting.withFiles w).files.canonicalize (dir.join raw) = .ok path :=
      hw.found hfound hrecorded
    rw [run_bind, run_resolveFile, hfound']
    exact h.again herrors w hw

/-- **A source that is read is recorded**; one that is not found, or is no source, has to be
reported. -/
theorem traced_source_bind {dir : Setting σ → Path} {raw : String}
    {f : Setting σ → Except ResourceError Path → Action σ β} {g : Path → Dict Value → Action σ β}
    (hdir : ∀ s w, dir (s.withFiles w) = dir s) (hnone : ∀ s e, LoudTo post' (f s (.error e)))
    (herror : ∀ s path e, s.files.source path = .error e → LoudTo post' (f s (.ok path)))
    (hok : ∀ s path d, s.files.source path = .ok d → f s (.ok path) = g path d)
    (hg : ∀ path d, TracedTo post' (g path d)) :
    TracedTo post' (read >>= fun s => resolveFile (dir s) raw >>= f s) := by
  intro setting p r q hfan hrun
  have hread : ∀ s, (read >>= fun s => resolveFile (dir s) raw >>= f s).run s p =
      (resolveFile (dir s) raw >>= f s).run s p := fun _ => rfl
  rw [hread, run_bind, run_resolveFile] at hrun
  cases hfound : setting.files.canonicalize ((dir setting).join raw) with
  | error e =>
    rw [hfound] at hrun
    obtain ⟨hgrows, hpost, hmore⟩ := hnone setting e setting p r q hfan hrun
    exact .of_lt hgrows hpost hmore
  | ok path =>
    rw [hfound] at hrun
    cases hsource : setting.files.source path with
    | error e =>
      obtain ⟨hgrows, hpost, hmore⟩ := herror setting path e hsource setting _ r q hfan hrun
      exact .of_lt (grows_of_recorded hgrows).1 hpost hmore
    | ok d =>
      dsimp only at hrun
      rw [hok setting path d hsource] at hrun
      have h := hg path d setting _ r q hfan hrun
      obtain ⟨hgrows, hrecorded⟩ := grows_of_recorded h.grows
      refine ⟨hgrows, h.outcome, fun herrors w hw => ?_⟩
      have hfound' : (setting.withFiles w).files.canonicalize ((dir setting).join raw) = .ok path :=
        hw.found hfound hrecorded
      rw [hread, run_bind, run_resolveFile, hdir, hfound']
      dsimp only
      rw [hok (setting.withFiles w) path d (hw.source hsource hrecorded)]
      exact h.again herrors w hw

end Action

end ResourceTree
