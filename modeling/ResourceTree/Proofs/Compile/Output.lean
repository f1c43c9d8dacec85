import ResourceTree.Proofs.Compile.Steps

/-!
# Outputs — what a compile gives, and when it gives the same again

* `get?_withoutFlags`, `wellFormed_stripFlags`: trees that flags were taken out of;
* `Compile.outputOf`, `files_outputOf`, `wellFormed_outputOf`: what is made of a saved tree;
* `Compile.built`, `run_pipeline`: a compile up to the saved tree;
* `compileFile_eq_ok_iff`, **`compileFile_again`**: the files that an output without errors lists
  decide it.
-/

namespace ResourceTree

open ResourceTree.Action

namespace Compile

/-! ## Trees without flags -/

theorem membersWithoutFlags_eq (entries : List (String × Value)) :
    membersWithoutFlags entries =
      (entries.filter fun entry => entry.1 ≠ Reserved.compress).map (Prod.map id withoutFlags) := by
  induction entries with
  | nil => rfl
  | cons entry rest ih =>
    rw [membersWithoutFlags, ih]
    split_ifs with hname
    · rw [List.filter_cons_of_neg (by simpa using hname)]
    · rw [List.filter_cons_of_pos (by simpa using hname)]
      rfl

theorem mem_membersWithoutFlags {entries : List (String × Value)} {member : String × Value}
    (h : member ∈ membersWithoutFlags entries) :
    ∃ entry ∈ entries, member.2 = withoutFlags entry.2 := by
  rw [membersWithoutFlags_eq] at h
  obtain ⟨entry, hin, rfl⟩ := List.mem_map.mp h
  exact ⟨entry, List.mem_of_mem_filter hin, rfl⟩

theorem withoutFlags_dict (d : Dict Value) :
    withoutFlags (.dict d) = .dict (Dict.ofValues (membersWithoutFlags d.entries)) := by
  rw [withoutFlags]

theorem isNull_withoutFlags (v : Value) : (withoutFlags v).isNull = v.isNull := by
  cases v <;> rfl

theorem itemsWithoutFlags_eq (items : List Value) :
    itemsWithoutFlags items = items.map withoutFlags := by
  induction items with
  | nil => rfl
  | cons item rest ih => rw [itemsWithoutFlags, ih, List.map_cons]

theorem nodup_membersWithoutFlags {entries : List (String × Value)}
    (h : (Dict.names entries).Nodup) : (Dict.names (membersWithoutFlags entries)).Nodup := by
  rw [membersWithoutFlags_eq, Dict.names_map]
  exact h.sublist (List.filter_sublist.map Prod.fst)

theorem ne_null_membersWithoutFlags {entries : List (String × Value)}
    (h : ∀ entry ∈ entries, entry.2 ≠ .null) :
    ∀ member ∈ membersWithoutFlags entries, member.2 ≠ .null := by
  intro member hmember
  obtain ⟨entry, hentry, heq⟩ := mem_membersWithoutFlags hmember
  rw [← Dict.isNull_eq_false_iff, heq, isNull_withoutFlags, Dict.isNull_eq_false_iff]
  exact h entry hentry

theorem lookup_membersWithoutFlags (entries : List (String × Value)) (name : String) :
    (membersWithoutFlags entries).lookup name =
      if name = Reserved.compress then none else (entries.lookup name).map withoutFlags := by
  induction entries with
  | nil => split_ifs <;> rfl
  | cons entry rest ih =>
    obtain ⟨key, v⟩ := entry
    rw [membersWithoutFlags, Dict.lookup_cons_entry]
    by_cases hkey : key = Reserved.compress
    · rw [if_pos hkey, ih]
      split_ifs with hname hsame
      · rfl
      · exact absurd (hsame.trans hkey) hname
      · rfl
    · rw [if_neg hkey, Dict.lookup_cons_entry, ih]
      split_ifs with hsame hname
      · exact absurd (hsame.symm.trans hname) hkey
      · rfl
      · rfl
      · rfl

theorem get?_withoutFlags {d : Dict Value} (h : d.WellFormed) (hn : d.NullFree) (name : String) :
    (Dict.ofValues (membersWithoutFlags d.entries)).get? name =
      if name = Reserved.compress then none else (d.get? name).map withoutFlags := by
  rw [Dict.get?_ofValues (nodup_membersWithoutFlags h.nodup) (ne_null_membersWithoutFlags hn)]
  exact lookup_membersWithoutFlags d.entries name

theorem wellFormed_ofMembers {entries : List (String × Value)}
    (h : ∀ entry ∈ entries, (withoutFlags entry.2).WellFormed) :
    (Value.dict (Dict.ofValues (membersWithoutFlags entries))).WellFormed := by
  refine Value.wellFormed_dict Dict.wellFormed_ofValues Dict.nullFree_ofValues
    fun member hmember => ?_
  obtain ⟨entry, hentry, heq⟩ := mem_membersWithoutFlags (Dict.subperm_ofValues.subset hmember)
  exact heq ▸ h entry hentry

theorem wellFormed_withoutFlags (v : Value) : (withoutFlags v).WellFormed := by
  induction v using Value.induct with
  | dict d ih => rw [withoutFlags]; exact wellFormed_ofMembers ih
  | list items ih =>
    rw [withoutFlags, itemsWithoutFlags_eq]
    refine Value.wellFormed_list fun v hv => ?_
    obtain ⟨item, hitem, rfl⟩ := List.mem_map.mp hv
    exact ih item hitem
  | _ => rintro d ⟨⟩

theorem wellFormed_stripFlags (hs : Handles) (root : Dict Value) :
    (Value.dict (stripFlags hs root).1).WellFormed :=
  wellFormed_ofMembers fun entry _ => wellFormed_withoutFlags entry.2

/-! ## The end of a compile -/

variable {σ : Type}

/-- The output that is made of a saved tree at the end of a compile. -/
def outputOf (saved : Dict Value × Bool) (p : Progress σ) : Output :=
  ⟨(stripFlags p.store.handles saved.1).1.set Reserved.files
      (.list (p.files.map fun path => .string path.text)),
    p.errors.toList, (stripFlags p.store.handles saved.1).2 || saved.2, false⟩

theorem dependencies_set (d : Dict Value) (files : List Path) :
    dependencies (d.set Reserved.files (.list (files.map fun path => .string path.text))) =
      files := by
  unfold dependencies
  rw [Dict.set_of_ne_null Value.noConfusion, Dict.get?_insert_self]
  simp [Value.asList?, Value.asString?]

theorem files_outputOf (saved : Dict Value × Bool) (p : Progress σ) :
    (outputOf saved p).files = p.files := dependencies_set _ _

theorem wellFormed_outputOf (saved : Dict Value × Bool) (p : Progress σ) :
    (Value.dict (outputOf saved p).dict).WellFormed := by
  have h := wellFormed_stripFlags p.store.handles saved.1
  have hitems : (Value.list (p.files.map fun path => .string path.text)).WellFormed := by
    refine Value.wellFormed_list fun v hv => ?_
    obtain ⟨path, -, rfl⟩ := List.mem_map.mp hv
    rintro d ⟨⟩
  exact Value.wellFormed_set h hitems

variable [ObjectClass σ]

/-- The steps of a compile before its flags are taken out: the saved tree, and whether it asks for
compression. -/
def built (dir : Path) (d : Dict Value) : Action σ (Dict Value × Bool) := do
  let d ← (anchored dir).run 0 d
  let d ← expanded.run revisitLimit d
  let asked := requestsPacking (← Action.handles) d
  let d ← instantiated.run 0 d
  let d ← finished.run 0 d
  let d ← extended d
  let d ← saved.run (← Action.store).objects.size d
  return (d, asked)

theorem traced_built (dir : Path) (d : Dict Value) : (built dir d : Action σ _).Traced :=
  traced_bind (Rewrite.traced_run (traced_anchored dir) 0 d) fun d _ =>
    traced_bind (Rewrite.traced_run traced_expanded revisitLimit d) fun _ _ =>
    traced_bind traced_handles fun _ _ =>
    traced_bind (Rewrite.traced_run traced_instantiated 0 _) fun d _ =>
    traced_bind (Rewrite.traced_run traced_finished 0 d) fun d _ =>
    traced_bind (traced_extended d) fun _ _ =>
    traced_bind traced_store fun _ _ =>
    traced_bind (Rewrite.traced_run traced_saved _ _) fun _ _ => traced_pure trivial

/-- **The run of a compile**: the source is recorded, the tree is built, and the output is made. -/
theorem run_pipeline (dir : Path) (source : Option Path) (d : Dict Value) (setting : Setting σ)
    (s : Store σ) : (pipeline dir source d).run setting (Progress.initial s) =
      match (built dir d).run setting { Progress.initial s with files := source.toList } with
      | (.ok saved, q) => (.ok (outputOf saved q), { q with errors := #[] })
      | (.error crash, q) => (.error crash, q) := by
  have hsplit : (pipeline dir source d : Action σ Output) =
      source.elim (pure ()) Action.recordFile >>= fun _ =>
      built dir d >>= fun saved => do
        let stripped := stripFlags (← Action.handles) saved.1
        let files := (← get).files.map fun path => Value.string path.text
        let errors ← Action.takeErrors
        return ⟨stripped.1.set Reserved.files (.list files), errors, stripped.2 || saved.2,
          false⟩ := by
    cases source <;> simp only [pipeline, built, bind_assoc, pure_bind, Option.elim]
  have hrecord : (source.elim (pure ()) Action.recordFile : Action σ Unit).run setting
      (Progress.initial s) =
      (.ok (), { Progress.initial s with files := source.toList }) := by
    cases source <;> rfl
  rw [hsplit, run_bind, hrecord]
  dsimp only
  rw [run_bind]
  rcases (built dir d).run setting _ with ⟨crash | saved, q⟩ <;> rfl

end Compile

/-! ## Compiles of files -/

namespace Compiler

variable {φ σ : Type} [FileSystem φ] [ObjectClass σ] {c : Compiler φ σ} {s : Store σ} {path : Path}
  {o : Output} {finished : List ObjectRef}

/-- The setting in which a source is compiled. -/
def settingOf (c : Compiler φ σ) (source : Path) : Setting σ :=
  Setting.of ((source.parent?).getD ⟨"/"⟩) c.config.debug (FileView.of c.files) c.registry
    c.config.fanOut

/-- The setting in which what lies in a directory is compiled. -/
def settingIn (c : Compiler φ σ) (dir : Path) : Setting σ :=
  Setting.of dir c.config.debug (FileView.of c.files) c.registry c.config.fanOut

/-- **A compile runs its steps**, and makes the output of the saved tree. -/
theorem compileWith_eq (dir : Path) (source : Option Path) (d : Dict Value) :
    c.compileWith s dir source d =
      match (Compile.built dir d).run (c.settingIn dir)
        { Progress.initial s with files := source.toList } with
      | (.ok saved, q) => ⟨.ok (Compile.outputOf saved q, q.finished.toList), q.store, c.files⟩
      | (.error crash, q) => ⟨.error crash.panic, q.store, c.files⟩ := by
  have hrun := Compile.run_pipeline dir source d (c.settingIn dir) s
  unfold settingIn at hrun ⊢
  unfold compileWith
  simp only [hrun]
  rcases (Compile.built dir d).run _ _ with ⟨crash | saved, q⟩ <;> rfl

theorem outcome_compileWith (dir : Path) (source : Option Path) (d : Dict Value) :
    (c.compileWith s dir source d).outcome =
      match (Compile.built dir d).run (c.settingIn dir)
        { Progress.initial s with files := source.toList } with
      | (.ok saved, q) => .ok (Compile.outputOf saved q, q.finished.toList)
      | (.error crash, _) => .error crash.panic := by
  rw [compileWith_eq]
  rcases (Compile.built dir d).run _ _ with ⟨crash | saved, q⟩ <;> rfl

theorem compileWith_outcome (source : Path) (d : Dict Value) :
    (c.compileWith s ((source.parent?).getD ⟨"/"⟩) (some source) d).outcome =
      match (Compile.built ((source.parent?).getD ⟨"/"⟩) d).run (c.settingOf source)
        { Progress.initial s with files := [source] } with
      | (.ok saved, q) => .ok (Compile.outputOf saved q, q.finished.toList)
      | (.error crash, _) => .error crash.panic :=
  outcome_compileWith _ (some source) d

/-- **When a compile gives an output without errors**: the source is found and read, and no step
adds a diagnostic. -/
theorem compileFile_eq_ok_iff (ho : o.errors = []) :
    (c.compileFile s path).outcome = .ok (o, finished) ↔
      ∃ source d saved q, FileSystem.canonicalize c.files path = .ok source ∧
        (FileView.of c.files).source source = .ok d ∧
        (Compile.built ((source.parent?).getD ⟨"/"⟩) d).run (c.settingOf source)
          { Progress.initial s with files := [source] } = (.ok saved, q) ∧
        o = Compile.outputOf saved q ∧ finished = q.finished.toList := by
  have hfailed : ∀ e : Diagnostic, ¬ Output.failed e = o := by
    rintro e rfl
    cases ho
  unfold compileFile
  cases hsource : FileSystem.canonicalize c.files path with
  | error e =>
    refine iff_of_false (fun h => ?_) nofun
    exact hfailed _ (Prod.mk.inj (Except.ok.inj h)).1
  | ok source =>
    have hread : c.readSource source = (FileView.of c.files).source source := rfl
    cases hd : (FileView.of c.files).source source with
    | error e =>
      simp only [hread, hd]
      refine iff_of_false (fun h => ?_) ?_
      · exact hfailed _ (Prod.mk.inj (Except.ok.inj h)).1
      · rintro ⟨source', d, saved, q, hsource', hd', -⟩
        cases hsource'
        cases hd.symm.trans hd'
    | ok d =>
      simp only [hread, hd, compileWith_outcome]
      rcases hrun : (Compile.built _ d).run _ _ with ⟨crash | saved, q⟩
      · refine iff_of_false nofun ?_
        rintro ⟨source', d', saved, q, hsource', hd', hrun', -⟩
        cases hsource'
        cases hd.symm.trans hd'
        cases hrun.symm.trans hrun'
      · refine ⟨fun h => ?_, ?_⟩
        · cases h
          exact ⟨source, d, saved, q, rfl, hd, hrun, rfl, rfl⟩
        · rintro ⟨source', d', saved', q', hsource', hd', hrun', rfl, rfl⟩
          cases hsource'
          cases hd.symm.trans hd'
          cases hrun.symm.trans hrun'
          rfl

/-- **The files that an output lists decide it.** A compile by one worker without errors gives the
same over other files that match in those. -/
theorem compileFile_again {files : φ} (hparallel : c.config.parallel = false)
    (h : (c.compileFile s path).outcome = .ok (o, finished)) (ho : o.errors = [])
    (hmatches : (FileView.of c.files).Matches (FileView.of files) o.files) :
    ({ c with files }.compileFile s path).outcome = .ok (o, finished) := by
  obtain ⟨source, d, saved, q, hsource, hd, hrun, rfl, rfl⟩ := (compileFile_eq_ok_iff ho).mp h
  rw [Compile.files_outputOf] at hmatches
  have hfan : (c.settingOf source).fanOut = none := by
    show c.config.fanOut = none
    rw [Config.fanOut, hparallel]
    rfl
  have htraced := Compile.traced_built _ d _ _ _ _ hfan hrun
  have hrecorded : source.Among q.files :=
    htraced.grows.files source ⟨source, List.mem_cons_self, rfl⟩
  have hquiet : q.errors.size = (Progress.initial s).errors.size :=
    congrArg List.length ho
  exact (compileFile_eq_ok_iff ho).mpr ⟨source, d, saved, q, hmatches.found hsource hrecorded,
    hmatches.source hd hrecorded, htraced.again hquiet _ hmatches, rfl, rfl⟩

end Compiler

end ResourceTree
