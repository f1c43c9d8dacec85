import ResourceTree.Proofs.Expand.NormalForm

/-!
# Templates and dictionaries merged by hand

A template is a merge that the walk makes, one revisit deeper. As long as no visit comes to the
limit, how deep a walk is makes no difference, so the merge may as well be made by hand.

* `Diagnostic.TooDeep`: what is said at the limit;
* **`Action.Follows`**: a run that is the same unless the limit was met, `congruence_follows`;
* **`follows_expansion`**: the visit of a value, one revisit deeper;
* **`expansion_template`**: a dictionary with a template against the merged one.
-/

namespace ResourceTree

open ResourceTree.Action

/-- **A diagnostic of the limit**: a dictionary or a named value lies too deep inside revisits. -/
def Diagnostic.TooDeep (e : Diagnostic) : Prop :=
  e.kind = .resolution ∧ (e.message = Compile.directiveTooDeep ∨
    ∃ path, e.message = Compile.valueTooDeep path)

namespace Action

variable {σ α β : Type} {action action' : Action σ α}

/-- **The second action does what the first one did, unless that met the limit.** The first one only
adds diagnostics. -/
def Follows (action action' : Action σ α) : Prop :=
  ∀ setting p result q, action.run setting p = (result, q) → ∃ added : List Diagnostic,
    q.errors.toList = p.errors.toList ++ added ∧
    ((∀ e ∈ added, ¬ e.TooDeep) → action'.run setting p = (result, q))

/-- An action that adds no diagnostic follows itself. -/
theorem follows_of_errors (h : ∀ setting p, (action.run setting p).2.errors = p.errors) :
    Follows action action := fun setting p result q hrun =>
  ⟨[], by rw [← h setting p, hrun]; simp, fun _ => hrun⟩

theorem follows_of_noting (h : ∀ setting, Noting setting action) : Follows action action := by
  intro setting p result q hrun
  obtain ⟨outcome, houtcome⟩ := h setting
  have hadded := (houtcome setting.fanOut p).symm.trans hrun
  exact ⟨_, by rw [← (Prod.mk.inj hadded).2, Progress.errors_notes], fun _ => hrun⟩

theorem follows_bind {f f' : α → Action σ β} (h : Follows action action')
    (hf : ∀ a, Follows (f a) (f' a)) : Follows (action >>= f) (action' >>= f') := by
  intro setting p result r hrun
  rw [run_bind] at hrun
  rcases hfirst : action.run setting p with ⟨crash | a, q⟩
  · rw [hfirst] at hrun
    cases hrun
    obtain ⟨added, herrors, hsame⟩ := h setting p _ _ hfirst
    exact ⟨added, herrors, fun hno => by rw [run_bind, hsame hno]⟩
  · rw [hfirst] at hrun
    obtain ⟨added, herrors, hsame⟩ := h setting p _ _ hfirst
    obtain ⟨more, herrors', hsame'⟩ := hf a setting q _ _ hrun
    refine ⟨added ++ more, by rw [herrors', herrors, List.append_assoc], fun hno => ?_⟩
    obtain ⟨hno, hno'⟩ := List.forall_mem_append.mp hno
    rw [run_bind, hsame hno]
    exact hsame' hno'

theorem follows_recover {handler : Crash → Action σ α} (h : Follows action action')
    (hhandler : ∀ crash, Follows (handler crash) (handler crash)) :
    Follows (action.recover handler) (action'.recover handler) := by
  intro setting p result r hrun
  rw [run_recover] at hrun
  rcases hfirst : action.run setting p with ⟨crash | a, q⟩
  · rw [hfirst] at hrun
    obtain ⟨added, herrors, hsame⟩ := h setting p _ _ hfirst
    obtain ⟨more, herrors', -⟩ := hhandler crash setting q _ _ hrun
    refine ⟨added ++ more, by rw [herrors', herrors, List.append_assoc], fun hno => ?_⟩
    rw [run_recover, hsame (List.forall_mem_append.mp hno).1]
    exact hrun
  · rw [hfirst] at hrun
    cases hrun
    obtain ⟨added, herrors, hsame⟩ := h setting p _ _ hfirst
    exact ⟨added, herrors, fun hno => by rw [run_recover, hsame hno]⟩

/-- **That the limit was not met is passed on** from the parts of an action to the whole. -/
theorem congruence_follows :
    Congruence fun (α : Type) (action action' : Action σ α) => Follows action action' where
  pure _ := follows_of_errors fun _ _ => rfl
  bind := follows_bind
  recover := follows_recover
  read := follows_of_errors fun _ _ => rfl
  nextWorker := follows_of_errors fun _ _ => rfl
  record d := by
    rintro setting p _ _ ⟨⟩
    exact ⟨[d], by simp, fun _ => rfl⟩

theorem errors_reference (name : String) (setting : Setting σ) (p : Progress σ) :
    ((reference name).run setting p).2.errors = p.errors := by
  unfold reference
  rw [run_modifyGet]
  cases p.references.get? name <;> rfl

end Action

namespace Compile

variable {σ : Type} {place : Place}

theorem lt_of_deeper_lt (h : place.deeper.nesting < revisitLimit) : place.nesting < revisitLimit :=
  Nat.lt_of_succ_lt h

theorem follows_tooDeep {α : Type} {message : String} {a : α} {action : Action σ α}
    (h : message = directiveTooDeep ∨ ∃ path, message = valueTooDeep path) :
    Follows (addError place .resolution message >>= fun _ => pure a) action := by
  rintro setting p _ _ ⟨⟩
  exact ⟨[⟨.resolution, place.pathText, message⟩], by simp, fun hno =>
    absurd ⟨rfl, h⟩ (hno _ List.mem_cons_self)⟩

/-- **How deep a walk is inside revisits makes no difference**, as long as it does not come to the
limit. -/
theorem follows_expansion (v : Value) (place : Place) :
    Follows (expansion v place.deeper : Action σ _) (expansion v place) := by
  have hR : Congruence fun (α : Type) (action action' : Action σ α) => Follows action action' :=
    congruence_follows
  have hhandles : Follows (handles : Action σ _) handles := follows_of_errors fun _ _ => rfl
  induction v, place using induct_expansion with
  | dict d place ih ihdeeper =>
    cases hd : hasDirective d with
    | false =>
      rw [expansion_members hd, expansion_members hd]
      refine follows_bind hhandles fun hs => follows_bind ?_ fun out => hR.pure _
      have hmember := fun entry hentry worker => ih entry (openMembers_subset hentry)
        (((place.inScope (ownValues hs d)).member entry.1).withWorker worker) rfl
      exact hR.related_runMembers rfl (fun entry hentry => hmember entry hentry place.worker)
        hmember
    | true =>
      rcases Nat.lt_or_ge place.deeper.nesting revisitLimit with hlt | hge
      · rw [expansion_directive hd hlt, expansion_directive hd (lt_of_deeper_lt hlt)]
        exact follows_bind (follows_of_noting fun setting => noting_expandDict place d)
          fun d' => ihdeeper (lt_of_deeper_lt hlt) (.dict d')
      · rw [expansion_capped hd hge]
        exact follows_tooDeep (.inl rfl)
  | list items place ih =>
    rw [expansion_list, expansion_list]
    refine follows_bind ?_ fun out => hR.pure _
    exact hR.related_runElements 0 fun item hitem i => ih item hitem (place.element i) rfl
  | string text place ihdeeper =>
    cases hvalue : Reserved.afterMark? Reserved.valueMark text with
    | some path =>
      rcases Nat.lt_or_ge place.deeper.nesting revisitLimit with hlt | hge
      · rw [expansion_value hvalue hlt, expansion_value hvalue (lt_of_deeper_lt hlt)]
        refine follows_bind hhandles fun hs => ?_
        have hlookup : place.deeper.lookup hs path = place.lookup hs path := rfl
        rw [hlookup]
        cases place.lookup hs path with
        | none => exact follows_bind (hR.record _) fun _ => hR.pure none
        | some w => exact ihdeeper (lt_of_deeper_lt hlt) w
      · rw [expansion_valueCapped hvalue hge]
        exact follows_tooDeep (.inr ⟨path, rfl⟩)
    | none =>
      cases href : Reserved.afterMark? Reserved.refMark text with
      | some name =>
        rw [expansion_reference hvalue href, expansion_reference hvalue href]
        exact follows_bind (follows_of_errors (errors_reference name)) fun h => hR.pure _
      | none =>
        rw [expansion_text hvalue href, expansion_text hvalue href]
        exact hR.pure _
  | leaf v place hdict hlist hstring =>
    rw [expansion_leaf hdict hlist hstring, expansion_leaf hdict hlist hstring]
    exact hR.pure _

/-! ## Templates -/

variable {d under : Dict Value} {name : String}

theorem ownValues_erase {hs : Handles} (hd : d.WellFormed) (hname : name ≠ Reserved.values) :
    ownValues hs (d.erase name) = ownValues hs d := by
  unfold ownValues
  rw [Dict.get?_erase hd, if_neg hname.symm]

/-- The name of a template is looked up in the named values of the dictionary, whether or not the
template is still among its members. -/
theorem findTemplate_erase {hs : Handles} (hd : d.WellFormed) :
    findTemplate hs place (d.erase Reserved.template) name = findTemplate hs place d name := by
  unfold findTemplate
  rw [ownValues_erase hd (by decide)]

/-- **A template is a merge made by hand.** At every place, with whatever scopes and however deep
inside revisits, take a dictionary without an import, with a template whose name stands for a
dictionary, in its own named values or in the scopes. Its visit ends without a panic and only adds
diagnostics. If none of these is of the limit, then the visit of the dictionary that lies merged
over its template, at the same place and from the same progress, comes to the same result and the
same progress: the same diagnostics and files, references and handles. -/
theorem expansion_template (setting : Setting σ) (p : Progress σ) (place : Place)
    (hd : d.WellFormed) (himport : d.contains Reserved.import_ = false)
    (htemplate : d.get? Reserved.template = some (.string name))
    (hfound : findTemplate p.store.handles place d name = some under) :
    ∃ result q added, (expansion (.dict d) place).run setting p = (.ok result, q) ∧
      q.errors.toList = p.errors.toList ++ added ∧
      ((∀ e ∈ added, ¬ e.TooDeep) →
        (expansion (.dict (layer p.store.handles under (d.erase Reserved.template))) place).run
          setting p = (.ok result, q)) := by
  have hdirective : hasDirective d = true := by
    rw [hasDirective, Dict.contains, Dict.contains, htemplate, Option.isSome_some, Bool.or_true]
  rcases Nat.lt_or_ge place.nesting revisitLimit with hlt | hge
  · have himport : d.get? Reserved.import_ = none := by simpa [Dict.contains] using himport
    have hfound := (findTemplate_erase hd).trans hfound
    have hrun : (expansion (.dict d) place).run setting p =
        (expansion (.dict (layer p.store.handles under (d.erase Reserved.template)))
          place.deeper).run setting p := by
      rw [expansion_directive hdirective hlt, run_bind,
        run_expandDict_template himport htemplate hfound]
    obtain ⟨result, q, hmerged, -⟩ := gives_expansion setting
      (.dict (layer p.store.handles under (d.erase Reserved.template))) place.deeper p trivial
    obtain ⟨added, herrors, hsame⟩ := follows_expansion _ place setting p _ q hmerged
    exact ⟨result, q, added, hrun.trans hmerged, herrors, hsame⟩
  · rw [expansion_capped hdirective hge]
    refine ⟨none, _, [⟨.resolution, place.pathText, directiveTooDeep⟩], rfl, by simp, fun hno => ?_⟩
    exact absurd ⟨rfl, .inl rfl⟩ (hno _ List.mem_cons_self)

/-- A template that lies over another one. -/
def frame : Dict Value := Dict.ofValues
  [("template", .string "box"), ("width", .string "value:size")]

/-- A dictionary with named values and a template among them. -/
def door : Dict Value := Dict.ofValues
  [("template", .string "frame"), ("title", .string "value:name"),
    ("values", .dict (Dict.ofValues [("name", .string "front"), ("frame", .dict frame)]))]

/-- A place below the root, some revisits deep, that sees another template. -/
def doorway : Place where
  reversedPath := [.member "door"]
  scopes := [Dict.ofValues [("box", .dict (Dict.ofValues [("height", .string "value:size")])),
    ("size", .string "large")]]
  nesting := 29
  worker := 0

/-- Two templates, one over the other, and named values from two scopes: three revisits below the
limit. -/
theorem expansion_template_door :
    door.WellFormed ∧ door.contains Reserved.import_ = false ∧
    door.get? Reserved.template = some (.string "frame") ∧
    findTemplate Handles.empty doorway door "frame" = some frame ∧
    ∃ result q,
      (expansion (.dict door) doorway).run noFiles (Progress.initial .empty) = (.ok result, q) ∧
      result.isSome = true ∧ q.errors.toList = [] ∧
      (expansion (.dict (layer Handles.empty frame (door.erase Reserved.template))) doorway).run
        noFiles (Progress.initial .empty) = (.ok result, q) := by
  have hdoor : door.WellFormed := Dict.wellFormed_ofValues
  have himport : door.contains Reserved.import_ = false := by decide +kernel
  have htemplate : door.get? Reserved.template = some (.string "frame") := rfl
  have hfound : findTemplate Handles.empty doorway door "frame" = some frame := rfl
  have hkept : (((expansion (.dict door) doorway).run noFiles
      (Progress.initial .empty)).1.toOption.map Option.isSome) = some true := by decide +kernel
  have hquiet : ((expansion (.dict door) doorway).run noFiles
      (Progress.initial .empty)).2.errors.toList = [] := by decide +kernel
  obtain ⟨result, q, added, hrun, herrors, hsame⟩ := expansion_template noFiles
    (Progress.initial .empty) doorway hdoor himport htemplate hfound
  rw [hrun] at hkept hquiet
  obtain rfl : added = [] := herrors.symm.trans hquiet
  exact ⟨hdoor, himport, htemplate, hfound, result, q, hrun, Option.some.inj hkept, hquiet,
    hsame nofun⟩

end Compile

end ResourceTree
