import ResourceTree.Proofs.Dict.Copies
import ResourceTree.Proofs.Expand.Resolution

/-!
# Anchoring — what becomes of a source in a directory, and what is noted of it

A source that is anchored in a directory is the source with every text that is marked as a file in
the place of which stands the full path of the file, or nothing where it is missing, and with every
relative import put behind the directory. Each file that is found is recorded, and each one that is
missing is told of where its text stands. From then on all paths in it are absolute, so to anchor it
again does nothing.

* `Marked`, `mem_fileMarks`, `nodup_fileMarks`: the texts that are marked as files;
* `Behind`, **`AnchorsTo`**, `anchorsTo_anchoredForm`: what a value becomes;
* **`AnchoredIn`**, `anchoredIn_anchoredForm`: values with nothing left to anchor;
  `AnchoredIn.anchoredForm_eq`, `AnchoredIn.fileMarks_eq`: they stay as they are;
* `among_notes`, `missingFile`, `diagnostics_fileNotes`: what is recorded and told of;
* **`run_anchored_exact`**.
-/

namespace ResourceTree

namespace Reserved

theorem afterMark?_eq_some_iff {mark text raw : String} :
    afterMark? mark text = some raw ↔ text = mark ++ raw := by
  constructor
  · intro h
    unfold afterMark? at h
    split_ifs at h with hmark
    obtain ⟨rest, hrest⟩ := List.isPrefixOf_iff_prefix.mp hmark
    obtain rfl := Option.some.inj h
    rw [← String.toList_inj, String.toList_append, ← hrest, ← String.length_toList,
      List.drop_left, String.toList_ofList]
  · rintro rfl
    exact afterMark?_append mark raw

end Reserved

namespace MemoryFiles

variable {fs : MemoryFiles} {p : Path}

theorem canonicalize_of_missing (h : fs.file? p = none) :
    FileSystem.canonicalize fs p = .error (.notFound p.normalize.text) := by
  show (fun _ => p.normalize) <$> fs.find p.normalize = _
  unfold find
  rw [file?_congr (key_normalize p), h]
  rfl

end MemoryFiles

namespace Value

variable {v : Value}

theorem IsSingle.ne_dict (h : v.IsSingle) (d : Dict Value) : v ≠ .dict d := by
  rintro rfl
  exact h

theorem IsSingle.ne_list (h : v.IsSingle) (items : List Value) : v ≠ .list items := by
  rintro rfl
  exact h

end Value

theorem Progress.among_notes {σ : Type} {p : Progress σ} {added : List Note} {file : Path} :
    file.Among (p.notes added).files ↔
      file.Among p.files ∨ ∃ path, .file path ∈ added ∧ file.components = path.components := by
  induction added generalizing p with
  | nil => simp [notes]
  | cons note rest ih =>
    refine ih.trans ?_
    cases note with
    | file path =>
      rw [Progress.note, Path.among_insertSorted_iff, or_assoc]
      simp [or_and_right, exists_or]
    | _ => simp [Progress.note]

theorem Place.tidy_collect {visited : List Place.Visited}
    (h : (Dict.names (visited.map Prod.fst)).Pairwise (· < ·)) :
    (Place.collect ∅ visited).Tidy := by
  rw [Place.collect_eq_ofValues h]
  exact Dict.tidy_ofValues (Place.pairwise_present h) Place.ne_null_of_mem_present

namespace Compile

open ResourceTree.Action

variable {σ : Type} {setting : Setting σ} {files : FileView} {fs : MemoryFiles} {dir : Path}
  {v w : Value} {d root : Dict Value} {steps : List Step} {raw : String}

/-! ## Marked texts -/

/-- **A text that is marked as a file** stands at a path in a value. -/
inductive Marked : List Step → String → Value → Prop where
  | text {raw : String} : Marked [] raw (.string (Reserved.fileMark ++ raw))
  | member {steps : List Step} {raw name : String} {d : Dict Value} {v : Value}
      (there : d.get? name = some v) (marked : Marked steps raw v) :
      Marked (.member name :: steps) raw (.dict d)
  | element {steps : List Step} {raw : String} {items : List Value} {i : Nat} {v : Value}
      (there : items[i]? = some v) (marked : Marked steps raw v) :
      Marked (.element i :: steps) raw (.list items)

theorem mem_map_under {step : Step} {marks : List FileMark} :
    (steps, raw) ∈ marks.map (FileMark.under step) ↔
      ∃ rest, steps = step :: rest ∧ (rest, raw) ∈ marks := by
  rw [List.mem_map]
  constructor
  · rintro ⟨⟨rest, _⟩, hmark, ⟨⟩⟩
    exact ⟨rest, rfl, hmark⟩
  · rintro ⟨rest, rfl, hmark⟩
    exact ⟨(rest, raw), hmark, rfl⟩

theorem mem_fileMarks (h : v.WellFormed) : (steps, raw) ∈ fileMarks v ↔ Marked steps raw v := by
  induction v using Value.induct generalizing steps with
  | dict d ih =>
    simp only [fileMarks_dict, List.mem_flatMap, mem_map_under]
    constructor
    · rintro ⟨entry, hentry, rest, rfl, hmark⟩
      have hthere := Dict.inKeyOrder_subset hentry
      exact .member ((Dict.mem_inKeyOrder_iff h.root).mp hentry)
        ((ih entry hthere (h.member hthere)).mp hmark)
    · rintro (_ | ⟨hget, hmarked⟩)
      have hthere := Dict.mem_of_get? hget
      exact ⟨_, (Dict.mem_inKeyOrder_iff h.root).mpr hget, _, rfl,
        (ih _ hthere (h.member hthere)).mpr hmarked⟩
  | list items ih =>
    simp only [fileMarks_list, List.mem_flatMap, mem_map_under]
    constructor
    · rintro ⟨pair, hpair, rest, rfl, hmark⟩
      have hget := List.mem_zipIdx_iff_getElem?.mp hpair
      have hitem := List.mem_of_getElem? hget
      exact .element hget ((ih _ hitem (h.item hitem)).mp hmark)
    · rintro (_ | _ | ⟨hget, hmarked⟩)
      have hitem := List.mem_of_getElem? hget
      exact ⟨(_, _), List.mem_zipIdx_iff_getElem?.mpr hget, _, rfl,
        (ih _ hitem (h.item hitem)).mpr hmarked⟩
  | string text =>
    rw [fileMarks_other (by simp) (by simp)]
    constructor
    · intro hmark
      obtain ⟨found, hfound, heq⟩ := Option.map_eq_some_iff.mp (Option.mem_toList.mp hmark)
      obtain ⟨rfl, rfl⟩ := Prod.mk.inj heq
      rw [Reserved.afterMark?_eq_some_iff.mp hfound]
      exact .text
    · rintro ⟨⟩
      refine Option.mem_toList.mpr (Option.map_eq_some_iff.mpr ⟨raw, ?_, rfl⟩)
      exact Reserved.afterMark?_append _ raw
  | _ =>
    rw [fileMarks_other (by simp) (by simp)]
    exact iff_of_false (fun hmark => nomatch hmark) nofun

theorem under_injective (step : Step) : Function.Injective (FileMark.under step) := by
  intro mark mark' heq
  obtain ⟨hsteps, hraw⟩ := Prod.mk.inj heq
  exact Prod.ext (List.cons.inj hsteps).2 hraw

theorem disjoint_map_under {step step' : Step} (h : step ≠ step') (marks marks' : List FileMark) :
    (marks.map (FileMark.under step)).Disjoint (marks'.map (FileMark.under step')) := by
  intro (steps, raw) hmark hmark'
  obtain ⟨rest, rfl, -⟩ := mem_map_under.mp hmark
  obtain ⟨rest', heq, -⟩ := mem_map_under.mp hmark'
  exact h (List.cons.inj heq).1

theorem nodup_fileMarks (v : Value) : (fileMarks v).Nodup := by
  induction v using Value.induct with
  | dict d ih =>
    rw [fileMarks_dict]
    refine List.nodup_flatMap.mpr ⟨fun entry hentry => ?_, ?_⟩
    · exact (ih entry (Dict.inKeyOrder_subset hentry)).map (under_injective _)
    · refine (List.pairwise_map.mp Dict.pairwise_inKeyOrder).imp fun hlt => ?_
      exact disjoint_map_under (fun heq => ne_of_lt hlt (Step.member.inj heq)) _ _
  | list items ih =>
    rw [fileMarks_list]
    refine List.nodup_flatMap.mpr ⟨fun pair hpair => ?_, ?_⟩
    · exact (ih pair.1 (List.fst_mem_of_mem_zipIdx hpair)).map (under_injective _)
    · have hindex : (items.zipIdx.map Prod.snd).Pairwise (· < ·) := by
        rw [List.zipIdx_map_snd]
        exact List.pairwise_lt_range'
      refine (List.pairwise_map.mp hindex).imp fun hlt => ?_
      exact disjoint_map_under (fun heq => ne_of_lt hlt (Step.element.inj heq)) _ _
  | _ =>
    rw [fileMarks_other (by simp) (by simp)]
    cases (Value.asString? _).bind (Reserved.afterMark? Reserved.fileMark) with
    | none => exact List.nodup_nil
    | some raw => exact List.nodup_singleton _

/-! ## What becomes of a value -/

/-- **A target of an import put behind a directory**: relative texts, also those in lists. -/
inductive Behind (dir : Path) : Value → Value → Prop where
  | relative {raw : String} (h : (Path.mk raw).isAbsolute = false) :
      Behind dir (.string raw) (.string (dir.join raw).text)
  | absolute {raw : String} (h : (Path.mk raw).isAbsolute = true) :
      Behind dir (.string raw) (.string raw)
  | list {items behind : List Value} (h : List.Forall₂ (Behind dir) items behind) :
      Behind dir (.list items) (.list behind)
  | other {v : Value} (hstring : ∀ raw, v ≠ .string raw) (hlist : ∀ items, v ≠ .list items) :
      Behind dir v v

/-- **What a value becomes in a source in a directory**, if it is not dropped. A text that is marked
as a file becomes the full path of the file, and is dropped where it is missing. Lists and
dictionaries hold what has become of their items and members, and the import of a dictionary is put
behind the directory; all else is kept. -/
inductive AnchorsTo (fs : MemoryFiles) (dir : Path) : Value → Option Value → Prop where
  | found {raw : String} (there : (fs.file? (dir.join raw)).isSome = true) :
      AnchorsTo fs dir (.string (Reserved.fileMark ++ raw))
        (some (.string (dir.join raw).normalize.text))
  | missing {raw : String} (absent : fs.file? (dir.join raw) = none) :
      AnchorsTo fs dir (.string (Reserved.fileMark ++ raw)) none
  | kept {v : Value} (single : v.IsSingle)
      (unmarked : ∀ raw, v ≠ .string (Reserved.fileMark ++ raw)) : AnchorsTo fs dir v (some v)
  | list {items : List Value} {results : List (Option Value)}
      (h : List.Forall₂ (AnchorsTo fs dir) items results) :
      AnchorsTo fs dir (.list items) (some (.list (results.filterMap id)))
  | dict {d out : Dict Value} (results : String → Option Value)
      (absent : ∀ name, d.get? name = none → results name = none)
      (members : ∀ name v, d.get? name = some v → AnchorsTo fs dir v (results name))
      (kept : ∀ name, name ≠ Reserved.import_ → out.get? name = results name)
      (imports : Option.Rel (Behind dir) (results Reserved.import_)
        (out.get? Reserved.import_)) :
      AnchorsTo fs dir (.dict d) (some (.dict out))

theorem behind_anchorImport (dir : Path) (v : Value) : Behind dir v (anchorImport dir v) := by
  induction v using Value.induct with
  | string raw =>
    unfold anchorImport
    split_ifs with h
    · exact .absolute h
    · exact .relative (Bool.not_eq_true _ ▸ h)
  | list items ih =>
    rw [anchorImport, anchorImports_eq]
    exact .list (List.forall₂_map_right_iff.mpr (List.forall₂_same.mpr ih))
  | _ => exact .other (by simp) (by simp)

/-- **What a value becomes is its anchored form.** -/
theorem anchorsTo_anchoredForm (fs : MemoryFiles) (dir : Path) (h : v.WellFormed) :
    AnchorsTo fs dir v (anchoredForm (FileView.of fs) dir v) := by
  induction v using Value.induct with
  | dict d ih =>
    rw [anchoredForm_dict]
    refine .dict (fun name => (d.get? name).bind (anchoredForm (FileView.of fs) dir))
      (fun name hname => by rw [hname]; rfl) (fun name v hv => ?_) (fun name hname => ?_) ?_
    · have hentry := Dict.mem_of_get? hv
      rw [hv]
      exact ih (name, v) hentry (h.member hentry)
    · rw [get?_anchoredSource _ dir h, if_neg hname, Option.map_id]
      rfl
    · rw [get?_anchoredSource _ dir h, if_pos rfl]
      cases (d.get? Reserved.import_).bind (anchoredForm (FileView.of fs) dir) with
      | none => exact .none
      | some target => exact .some (behind_anchorImport dir target)
  | list items ih =>
    have hresults : items.filterMap (anchoredForm (FileView.of fs) dir) =
        (items.map (anchoredForm (FileView.of fs) dir)).filterMap id := by
      rw [List.filterMap_map]
      rfl
    rw [anchoredForm_list, hresults]
    refine .list (List.forall₂_map_right_iff.mpr (List.forall₂_same.mpr fun item hitem => ?_))
    exact ih item hitem (h.item hitem)
  | string text =>
    rw [anchoredForm]
    cases hmark : Reserved.afterMark? Reserved.fileMark text with
    | none =>
      refine .kept trivial fun raw heq => ?_
      obtain rfl := Value.string.inj heq
      rw [Reserved.afterMark?_append] at hmark
      cases hmark
    | some raw =>
      obtain rfl := Reserved.afterMark?_eq_some_iff.mp hmark
      dsimp only
      cases hfile : fs.file? (dir.join raw) with
      | none =>
        have hmissing : (FileView.of fs).canonicalize (dir.join raw) = _ :=
          MemoryFiles.canonicalize_of_missing hfile
        rw [hmissing]
        exact .missing hfile
      | some file =>
        have hthere : (fs.file? (dir.join raw)).isSome = true := by rw [hfile]; rfl
        have hfound : (FileView.of fs).canonicalize (dir.join raw) = _ :=
          MemoryFiles.canonicalize_eq_ok_iff.mpr ⟨rfl, hthere⟩
        rw [hfound]
        exact .found hthere
  | _ =>
    rw [anchoredForm_other (by simp) (by simp)]
    exact .kept trivial fun _ heq => Value.noConfusion heq

/-! ## Nothing left to anchor -/

/-- **A value in which nothing is left to anchor**: no text is marked as a file, imports stand
behind the directory, and dictionaries have names that were set in key order. -/
inductive AnchoredIn (dir : Path) : Value → Prop where
  | single {v : Value} (single : v.IsSingle)
      (unmarked : v.asString?.bind (Reserved.afterMark? Reserved.fileMark) = none) :
      AnchoredIn dir v
  | list {items : List Value} (h : ∀ item ∈ items, AnchoredIn dir item) :
      AnchoredIn dir (.list items)
  | dict {d : Dict Value} (tidy : d.Tidy)
      (imports : ∀ target, d.get? Reserved.import_ = some target →
        anchorImport dir target = target)
      (members : ∀ entry ∈ d.entries, AnchoredIn dir entry.2) : AnchoredIn dir (.dict d)

/-- What stands behind an absolute directory is put nowhere else. -/
theorem anchorImport_again (hdir : dir.isAbsolute = true) (v : Value) :
    anchorImport dir (anchorImport dir v) = anchorImport dir v := by
  induction v using Value.induct with
  | string raw =>
    have habs : (Path.mk (dir.join raw).text).isAbsolute = true := Path.isAbsolute_join hdir raw
    rw [anchorImport_string, anchorImport_string, Path.join_of_isAbsolute habs]
  | list items ih =>
    simp only [anchorImport, anchorImports_eq, List.map_map]
    exact congrArg Value.list (List.map_congr_left ih)
  | _ => rfl

theorem AnchoredIn.anchorImport (h : AnchoredIn dir v) (hdir : dir.isAbsolute = true) :
    AnchoredIn dir (anchorImport dir v) := by
  induction h with
  | @single v hsingle hunmarked =>
    cases v with
    | string raw =>
      rw [anchorImport_string]
      exact .single trivial (Path.afterMark?_of_isAbsolute (Path.isAbsolute_join hdir raw))
    | dict d => exact hsingle.elim
    | list items => exact hsingle.elim
    | _ => exact .single hsingle hunmarked
  | list _ ih =>
    rw [Compile.anchorImport, anchorImports_eq]
    exact .list (List.forall_mem_map.mpr ih)
  | dict tidy imports members => exact .dict tidy imports members

theorem tidy_anchoredSource (files : FileView) (dir : Path) (d : Dict Value) :
    (anchoredSource files dir d).Tidy := by
  have htidy : (anchoredMembers files dir d).Tidy :=
    Place.tidy_collect (pairwise_anchoredMembers files dir d)
  have hnull : (anchoredMembers files dir d).NullFree := Place.nullFree_collect
  unfold anchoredSource anchorMember
  split
  · next target htarget =>
    have hentry := Dict.mem_of_get? htarget
    rw [Dict.set_of_ne_null (anchorImport_ne_null (hnull _ hentry))]
    exact htidy.insert (List.mem_map_of_mem hentry)
  · exact htidy

/-- **What a value is anchored as has nothing left to anchor.** -/
theorem anchoredIn_anchoredForm (hdir : dir.isAbsolute = true) (h : v.WellFormed)
    (hw : anchoredForm (FileView.of fs) dir v = some w) : AnchoredIn dir w := by
  induction v using Value.induct generalizing w with
  | dict d ih =>
    rw [anchoredForm_dict] at hw
    obtain rfl := Option.some.inj hw
    have hmember : ∀ {name u}, (anchoredSource (FileView.of fs) dir d).get? name = some u →
        ∃ x, AnchoredIn dir x ∧
          u = if name = Reserved.import_ then anchorImport dir x else x := by
      intro name u hget
      rw [get?_anchoredSource _ dir h] at hget
      obtain ⟨x, hx, rfl⟩ := Option.map_eq_some_iff.mp hget
      obtain ⟨v, hv, hform⟩ := Option.bind_eq_some_iff.mp hx
      have hentry := Dict.mem_of_get? hv
      refine ⟨x, ih (name, v) hentry (h.member hentry) hform, ?_⟩
      split_ifs <;> rfl
    refine .dict (tidy_anchoredSource _ dir d) (fun target htarget => ?_) fun entry hentry => ?_
    · obtain ⟨x, -, rfl⟩ := hmember htarget
      rw [if_pos rfl, anchorImport_again hdir]
    · have hwf := (wellFormed_anchoredSource (FileView.of fs) dir d).root
      obtain ⟨x, hx, heq⟩ := hmember ((Dict.get?_eq_some_iff hwf).mpr hentry)
      rw [heq]
      split_ifs
      · exact hx.anchorImport hdir
      · exact hx
  | list items ih =>
    rw [anchoredForm_list] at hw
    obtain rfl := Option.some.inj hw
    refine .list fun u hu => ?_
    obtain ⟨item, hitem, hform⟩ := List.mem_filterMap.mp hu
    exact ih item hitem (h.item hitem) hform
  | _ =>
    rw [anchoredForm_other (by simp) (by simp)] at hw
    split at hw
    · next raw _ =>
      obtain ⟨path, hpath, rfl⟩ := Option.map_eq_some_iff.mp hw
      have hfound : FileSystem.canonicalize fs (dir.join raw) = .ok path := by
        have hview : (FileView.of fs).canonicalize (dir.join raw) = .ok path := by
          revert hpath
          cases (FileView.of fs).canonicalize (dir.join raw) <;> simp [Except.toOption]
        exact hview
      exact .single trivial (Path.afterMark?_of_isAbsolute
        (MemoryFiles.isAbsolute_of_canonicalize hfound (Path.isAbsolute_join hdir raw)))
    · next hunmarked =>
      obtain rfl := Option.some.inj hw
      exact .single trivial hunmarked

theorem AnchoredIn.fileMarks_eq (h : AnchoredIn dir v) : fileMarks v = [] := by
  induction h with
  | single hsingle hunmarked =>
    rw [fileMarks_other hsingle.ne_dict hsingle.ne_list, hunmarked]
    rfl
  | list _ ih =>
    rw [fileMarks_list]
    refine List.flatMap_eq_nil_iff.mpr fun pair hpair => ?_
    rw [ih pair.1 (List.fst_mem_of_mem_zipIdx hpair)]
    rfl
  | dict _ _ _ ih =>
    rw [fileMarks_dict]
    refine List.flatMap_eq_nil_iff.mpr fun entry hentry => ?_
    rw [ih entry (Dict.inKeyOrder_subset hentry)]
    rfl

/-- **Where nothing is left to anchor, nothing changes.** -/
theorem AnchoredIn.anchoredForm_eq (h : AnchoredIn dir v) (hwf : v.WellFormed)
    (files : FileView) : anchoredForm files dir v = some v := by
  induction h with
  | single hsingle hunmarked =>
    rw [anchoredForm_other hsingle.ne_dict hsingle.ne_list, hunmarked]
  | @list items _ ih =>
    rw [anchoredForm_list]
    have hsame : items.filterMap (anchoredForm files dir) = items.filterMap some :=
      List.filterMap_congr fun item hitem => ih item hitem (hwf.item hitem)
    rw [hsame, List.filterMap_some]
  | @dict d tidy imports _ ih =>
    rw [anchoredForm_dict]
    refine congrArg (fun d => some (Value.dict d))
      ((tidy_anchoredSource files dir d).eq_of_get? tidy fun name => ?_)
    rw [get?_anchoredSource files dir hwf]
    cases hget : d.get? name with
    | none => rfl
    | some u =>
      have hentry := Dict.mem_of_get? hget
      rw [Option.bind_some, ih (name, u) hentry (hwf.member hentry), Option.map_some]
      split_ifs with hname
      · rw [imports u (hname ▸ hget)]
      · rfl

/-! ## What is recorded and told of -/

/-- What is told of a marked text whose file is missing. -/
def missingFile (dir : Path) (mark : FileMark) : Diagnostic :=
  let e := ResourceError.notFound (dir.join mark.2).normalize.text
  ⟨.resolution, Step.render mark.1, s!"missing file '{mark.2}': {e.message}"⟩

theorem fileNote_of_found {mark : FileMark}
    (h : (fs.file? (dir.join mark.2)).isSome = true) :
    fileNote (FileView.of fs) dir mark = .file (dir.join mark.2).normalize := by
  have hfound : (FileView.of fs).canonicalize (dir.join mark.2) = _ :=
    MemoryFiles.canonicalize_eq_ok_iff.mpr ⟨rfl, h⟩
  rw [fileNote, hfound]

theorem fileNote_of_missing {mark : FileMark} (h : fs.file? (dir.join mark.2) = none) :
    fileNote (FileView.of fs) dir mark = .diagnostic (missingFile dir mark) := by
  have hmissing : (FileView.of fs).canonicalize (dir.join mark.2) = _ :=
    MemoryFiles.canonicalize_of_missing h
  rw [fileNote, hmissing]
  rfl

theorem diagnostics_fileNotes (marks : List FileMark) :
    (marks.map (fileNote (FileView.of fs) dir)).filterMap Note.diagnostic? =
      (marks.filter fun mark => (fs.file? (dir.join mark.2)).isNone).map (missingFile dir) := by
  induction marks with
  | nil => rfl
  | cons mark rest ih =>
    rw [List.map_cons, List.filterMap_cons, ih, List.filter_cons]
    cases hfile : fs.file? (dir.join mark.2) with
    | none => rw [fileNote_of_missing hfile]; rfl
    | some file =>
      rw [fileNote_of_found (by rw [hfile]; rfl)]
      rfl

theorem file_mem_fileNotes {marks : List FileMark} {path : Path} :
    .file path ∈ marks.map (fileNote (FileView.of fs) dir) ↔ ∃ mark ∈ marks,
      (fs.file? (dir.join mark.2)).isSome = true ∧ path = (dir.join mark.2).normalize := by
  rw [List.mem_map]
  refine exists_congr fun mark => and_congr_right fun _ => ?_
  cases hfile : fs.file? (dir.join mark.2) with
  | none =>
    rw [fileNote_of_missing hfile]
    exact iff_of_false nofun fun h => Bool.noConfusion h.1
  | some file =>
    rw [fileNote_of_found (by rw [hfile]; rfl), Note.file.injEq, eq_comm]
    exact (and_iff_right rfl).symm

/-- **To anchor a source is exact.** It becomes the source with full paths for the texts that are
marked as files, as far as they are found, and with imports behind the directory. Exactly the files
that were found are recorded, and exactly the texts that were dropped are told of, each once, where
it stood. To anchor what has become of it changes nothing, records no further file and tells of
nothing. -/
theorem run_anchored_exact (hfiles : setting.files = FileView.of fs)
    (hdir : dir.isAbsolute = true) (h : (Value.dict root).WellFormed) (p : Progress σ) :
    ∃ out q, ((anchored dir).run 0 root).run setting p = (.ok out, q) ∧
      AnchorsTo fs dir (.dict root) (some (.dict out)) ∧
      (∀ file : Path, file.Among q.files ↔ file.Among p.files ∨ ∃ steps raw,
        Marked steps raw (.dict root) ∧ (fs.file? (dir.join raw)).isSome = true ∧
          file.components = (dir.join raw).normalize.components) ∧
      (∃ dropped : List FileMark, dropped.Nodup ∧
        (∀ steps raw, (steps, raw) ∈ dropped ↔
          Marked steps raw (.dict root) ∧ fs.file? (dir.join raw) = none) ∧
        q.errors.toList = p.errors.toList ++ dropped.map (missingFile dir)) ∧
      ∃ r, ((anchored dir).run 0 out).run setting q = (.ok out, r) ∧
        r.files = q.files ∧ r.errors = q.errors := by
  have hform := anchoredForm_dict (FileView.of fs) dir root
  have hout := anchoredIn_anchoredForm hdir h hform
  have hagain : anchoredSource (FileView.of fs) dir (anchoredSource (FileView.of fs) dir root) =
      anchoredSource (FileView.of fs) dir root := by
    have hsame := hout.anchoredForm_eq (wellFormed_anchoredForm hform) (FileView.of fs)
    rw [anchoredForm_dict] at hsame
    exact Value.dict.inj (Option.some.inj hsame)
  have hrun : ∀ (d : Dict Value) (p : Progress σ), ((anchored dir).run 0 d).run setting p =
      (.ok (anchoredSource (FileView.of fs) dir d),
        p.notes (.worker :: (fileMarks (.dict d)).map (fileNote (FileView.of fs) dir))) := by
    rw [← hfiles]
    exact fun d => takes_run_anchored dir d
  refine ⟨_, _, hrun root p, hform ▸ anchorsTo_anchoredForm fs dir h, fun file => ?_,
    ⟨(fileMarks (.dict root)).filter fun mark => (fs.file? (dir.join mark.2)).isNone,
      (nodup_fileMarks _).filter _, fun steps raw => ?_, ?_⟩, ?_⟩
  · rw [Progress.among_notes]
    refine or_congr_right ⟨?_, ?_⟩
    · rintro ⟨path, hpath, hcomponents⟩
      have hpath := (List.mem_cons.mp hpath).resolve_left Note.noConfusion
      obtain ⟨⟨steps, raw⟩, hmark, hthere, rfl⟩ := file_mem_fileNotes.mp hpath
      exact ⟨steps, raw, (mem_fileMarks h).mp hmark, hthere, hcomponents⟩
    · rintro ⟨steps, raw, hmarked, hthere, hcomponents⟩
      refine ⟨_, List.mem_cons_of_mem _ (file_mem_fileNotes.mpr ?_), hcomponents⟩
      exact ⟨(steps, raw), (mem_fileMarks h).mpr hmarked, hthere, rfl⟩
  · rw [List.mem_filter, mem_fileMarks h, Option.isNone_iff_eq_none]
  · rw [Progress.errors_notes, List.filterMap_cons_none rfl, diagnostics_fileNotes]
  · have hlast := hrun (anchoredSource (FileView.of fs) dir root)
    rw [hagain, hout.fileMarks_eq] at hlast
    exact ⟨_, hlast _, rfl, rfl⟩

/-! ### A source with icons -/

/-- A directory with one icon. -/
def iconFiles : MemoryFiles := MemoryFiles.empty.insert ⟨"/ui/open"⟩ []

/-- A source that is to be read there. -/
def iconSetting : Setting Item :=
  Setting.of ⟨"/"⟩ false (FileView.of iconFiles) Item.registry none

/-- An icon that is there stands behind one that is missing, and in an import as well. -/
def icons : Dict Value :=
  .ofValues [("icons", .list [.string (Reserved.fileMark ++ "shut"),
      .string (Reserved.fileMark ++ "open")]),
    (Reserved.import_, .list [.string "more", .string (Reserved.fileMark ++ "open")])]

theorem wellFormed_icons : (Value.dict icons).WellFormed := by
  have hlist (texts : List String) : (Value.list (texts.map .string)).WellFormed :=
    Value.wellFormed_list (List.forall_mem_map.mpr fun _ _ => Value.wellFormed_leaf nofun nofun)
  exact Value.wellFormed_ofValues (List.forall_mem_cons.mpr ⟨hlist [_, _],
    List.forall_mem_singleton.mpr (hlist [_, _])⟩)

theorem run_anchored_icons : iconSetting.files = FileView.of iconFiles ∧
    (Path.mk "/ui").isAbsolute = true ∧ (Value.dict icons).WellFormed ∧
    ∃ out q r, ((anchored ⟨"/ui"⟩).run 0 icons).run iconSetting (Progress.initial .empty) =
        (.ok out, q) ∧
      ((Path.mk "/ui").join "open").normalize.Among q.files ∧
      missingFile ⟨"/ui"⟩ ([.member "icons", .element 0], "shut") ∈ q.errors.toList ∧
      ((anchored ⟨"/ui"⟩).run 0 out).run iconSetting q = (.ok out, r) ∧
      r.files = q.files ∧ r.errors = q.errors := by
  have hfiles : iconSetting.files = FileView.of iconFiles := rfl
  have hdir : (Path.mk "/ui").isAbsolute = true := by decide
  obtain ⟨out, q, hrun, -, hrecorded, ⟨dropped, -, hdropped, herrors⟩, r, hagain, hsame⟩ :=
    run_anchored_exact hfiles hdir wellFormed_icons (Progress.initial .empty)
  have hopen : Marked [.member "icons", .element 1] "open" (.dict icons) :=
    .member rfl (.element rfl .text)
  have hshut : Marked [.member "icons", .element 0] "shut" (.dict icons) :=
    .member rfl (.element rfl .text)
  have hthere : (iconFiles.file? ((Path.mk "/ui").join "open")).isSome = true := by decide +kernel
  have hgone : iconFiles.file? ((Path.mk "/ui").join "shut") = none :=
    Option.isNone_iff_eq_none.mp (by decide +kernel)
  refine ⟨hfiles, hdir, wellFormed_icons, out, q, r, hrun,
    (hrecorded _).mpr (.inr ⟨_, _, hopen, hthere, rfl⟩), ?_, hagain, hsame⟩
  rw [herrors]
  exact List.mem_append_right _ (List.mem_map_of_mem ((hdropped _ _).mpr ⟨hshut, hgone⟩))

end Compile

end ResourceTree
