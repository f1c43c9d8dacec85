import ResourceTree.Proofs.Expand.Hiding

/-!
# Contribution — what imported files bring to the dictionary that imports them

Whatever an imported file says itself is there in the end. Its own import and its template are names
like others: they are made use of only where nothing on top hides them. A file goes through all of
its rounds below a dictionary if that is laid over all that the file would be laid over.

* `Unhindered`, `covers_of_unhindered`: rounds of a file that are gone through below;
* `Leads`, **`unhindered_of_leads`**: a file that no template takes part in;
* `Trails`, **`unhindered_of_trails`**: a file that alone leads on;
* `Undisturbed`, **`unhindered_of_undisturbed`**: among other files;
* **`imports_contribute`**; `not_contributed`: what is hidden or dropped.
-/

namespace ResourceTree

namespace Compile

open ResourceTree.Action

variable {σ : Type} {setting : Setting σ} {hs : Handles} {place : Place} {d e f g : Dict Value}
  {fs : List (Dict Value)} {target : Value} {name : String}

/-! ## Rounds that are gone through below -/

/-- **A file goes through its rounds below a dictionary**: whatever the file would be laid over, the
dictionary is laid over as well, in some round. -/
def Unhindered (setting : Setting σ) (hs : Handles) (place : Place) (d f : Dict Value) : Prop :=
  ∀ n, ∀ g ∈ beneath setting hs place (afterRounds setting hs place n f),
    ∃ m, g ∈ beneath setting hs place (afterRounds setting hs place m d)

theorem unhindered_of_laidOver
    (hfirst : ∀ g ∈ beneath setting hs place f, g ∈ beneath setting hs place d)
    (hrest : Unhindered setting hs place d (laidOver setting hs place f)) :
    Unhindered setting hs place d f := by
  intro n
  cases n with
  | zero => exact fun g hg => ⟨0, hfirst g hg⟩
  | succ n => exact hrest n

section Orderly

variable (hhs : hs.Orderly) (hplace : place.Orderly)

include hhs hplace

/-- **All names that a file comes to have are there in the end.** -/
theorem covers_of_unhindered (hd : (Value.dict d).WellFormed) (hf : (Value.dict f).WellFormed)
    {rounds : Nat} (hsettled : hasDirective (afterRounds setting hs place rounds d) = false)
    (hfile : f ∈ beneath setting hs place d) (h : Unhindered setting hs place d f) (n : Nat) :
    Covers (afterRounds setting hs place n f) (afterRounds setting hs place rounds d) := by
  intro name himport htemplate hname
  rcases (contains_afterRounds hhs hplace hf himport htemplate n).mp hname with
    hname | ⟨m, -, g, hg, hname⟩
  · exact covers_beneath hhs hplace hd hsettled (n := 0) hfile name himport htemplate hname
  · obtain ⟨m', hg⟩ := h m g hg
    exact covers_beneath hhs hplace hd hsettled hg name himport htemplate hname

end Orderly

/-! ## A file that leads on by imports only -/

/-- **A dictionary that goes where a file goes**: it has its import, if that has one. -/
def Leads (f d : Dict Value) : Prop := ∀ target, f.get? Reserved.import_ = some target →
  d.get? Reserved.import_ = some target

theorem leads_of_none (h : f.get? Reserved.import_ = none) : Leads f d :=
  fun _ hsome => nomatch h.symm.trans hsome

theorem get?_import_overImports (hd : (Value.dict d).WellFormed) :
    (overImports setting hs d).get? Reserved.import_ =
      (importedBy setting d).findSome? (·.get? Reserved.import_) := by
  rw [overImports_eq, get?_layers (clean_erase hd) clean_importedBy (by decide),
    Dict.get?_erase hd.root, if_pos rfl, Option.none_or]

theorem Leads.importedBy_eq (h : Leads f d) (htarget : f.get? Reserved.import_ = some target) :
    importedBy setting d = importedBy setting f := by
  unfold importedBy importsOf
  rw [htarget, h target htarget]

/-- No template takes part in the rounds of a dictionary. -/
def Untemplated (setting : Setting σ) (hs : Handles) (place : Place) (f : Dict Value) : Prop :=
  ∀ rounds, (overImports setting hs (afterRounds setting hs place rounds f)).get?
    Reserved.template = none

section Orderly

variable (hhs : hs.Orderly) (hplace : place.Orderly) (hf : (Value.dict f).WellFormed)
  (hd : (Value.dict d).WellFormed)

include hhs hplace hd

theorem get?_import_overTemplate : (overTemplate hs place d).get? Reserved.import_ =
    (d.get? Reserved.import_).or
      ((templateOf hs place d).toList.findSome? (·.get? Reserved.import_)) := by
  rw [overTemplate_eq, get?_layers (clean_erase hd) (clean_templateOf hhs hplace hd) (by decide),
    Dict.get?_erase hd.root, if_neg (by decide)]

theorem Leads.overTemplate (h : Leads f d) : Leads f (overTemplate hs place d) := by
  intro target htarget
  rw [get?_import_overTemplate hhs hplace hd, h target htarget, Option.some_or]

include hf

theorem Leads.laidOver (hplain : (overImports setting hs f).get? Reserved.template = none)
    (h : Leads f d) : Leads (laidOver setting hs place f) (laidOver setting hs place d) := by
  have hfixed : Compile.laidOver setting hs place f = overImports setting hs f :=
    overTemplate_of_none hplain
  have himports : Leads (overImports setting hs f) (overImports setting hs d) := by
    cases htarget : f.get? Reserved.import_ with
    | none =>
      rw [overImports_of_none htarget]
      exact leads_of_none htarget
    | some target =>
      intro next hnext
      rwa [get?_import_overImports hd, h.importedBy_eq htarget, ← get?_import_overImports hf]
  exact hfixed ▸ himports.overTemplate hhs hplace (wellFormed_overImports hhs hd)

theorem leads_afterRounds (hplain : Untemplated setting hs place f) (h : Leads f d)
    (rounds : Nat) :
    Leads (afterRounds setting hs place rounds f) (afterRounds setting hs place rounds d) := by
  induction rounds with
  | zero => exact h
  | succ rounds ih =>
    rw [afterRounds_succ, afterRounds_succ]
    exact ih.laidOver hhs hplace (wellFormed_afterRounds hhs hplace hf rounds)
      (wellFormed_afterRounds hhs hplace hd rounds) (hplain rounds)

/-- **A dictionary that goes where a file goes does so in all rounds**, if no template takes part in
those of the file. -/
theorem unhindered_of_leads (hplain : Untemplated setting hs place f)
    (h : Leads f (laidOver setting hs place d)) : Unhindered setting hs place d f := by
  intro n g hg
  have hleads : Leads (afterRounds setting hs place n f) (afterRounds setting hs place (n + 1) d) :=
    leads_afterRounds hhs hplace hf (wellFormed_laidOver hhs hplace hd) hplain h n
  rw [beneath, templateOf, hplain n, Option.bind_none, Option.toList_none, List.append_nil] at hg
  refine ⟨n + 1, mem_beneath.mpr (.inl ?_)⟩
  cases htarget : (afterRounds setting hs place n f).get? Reserved.import_ with
  | none => exact absurd (importedBy_of_none htarget ▸ hg) List.not_mem_nil
  | some target => rwa [hleads.importedBy_eq htarget]

end Orderly

/-! ## A file that alone leads on -/

/-- The names by which a dictionary leads on. -/
def leading : List String := [Reserved.values, Reserved.import_, Reserved.template]

/-- The dictionary does not lead on, and brings no named values. -/
def Idle (d : Dict Value) : Prop := ∀ name ∈ leading, d.get? name = none

theorem Idle.ownValues_eq_none (h : Idle d) : ownValues hs d = none :=
  ownValues_of_none (h Reserved.values (by decide))

/-- **A dictionary that leads on as a file does.** -/
def Trails (f d : Dict Value) : Prop := ∀ name ∈ leading, d.get? name = f.get? name

theorem get?_values_layer_congr (hd : d.WellFormed ∧ d.NullFree) (he : e.WellFormed ∧ e.NullFree)
    (h : d.get? Reserved.values = e.get? Reserved.values) :
    (layer hs f d).get? Reserved.values = (layer hs f e).get? Reserved.values := by
  have hown : ownValues hs d = ownValues hs e := congrArg (·.bind hs.toDict?) h
  have hmerged : (Dict.merged f d).get? Reserved.values =
      (Dict.merged f e).get? Reserved.values := by
    rw [Dict.get?_merged hd.1 hd.2, Dict.get?_merged he.1 he.2, h]
  unfold layer
  dsimp only
  rw [hown]
  split
  · rw [Dict.set_of_ne_null (by simp), Dict.set_of_ne_null (by simp), Dict.get?_insert_self,
      Dict.get?_insert_self]
  · exact hmerged

namespace Trails

theorem layers (hf : f.WellFormed ∧ f.NullFree) (hd : d.WellFormed ∧ d.NullFree)
    (hfs : ∀ g ∈ fs, g.WellFormed ∧ g.NullFree) (h : Trails f d) :
    Trails (layers hs fs f) (layers hs fs d) := by
  induction fs generalizing f d with
  | nil => exact h
  | cons g fs ih =>
    obtain ⟨hg, hfs⟩ := List.forall_mem_cons.mp hfs
    refine ih (clean_layer hg.1 hg.2) (clean_layer hg.1 hg.2) hfs fun name hname => ?_
    by_cases hvalues : name = Reserved.values
    · rw [hvalues]
      exact get?_values_layer_congr hd hf (h _ (hvalues ▸ hname))
    · rw [get?_layer hd.1 hd.2 hvalues, get?_layer hf.1 hf.2 hvalues, h name hname]

theorem erase (other : String) (hf : f.WellFormed) (hd : d.WellFormed) (h : Trails f d) :
    Trails (f.erase other) (d.erase other) := by
  intro name hname
  rw [Dict.get?_erase hf, Dict.get?_erase hd, h name hname]

theorem importedBy_eq (h : Trails f d) : importedBy setting d = importedBy setting f := by
  unfold importedBy importsOf
  rw [h Reserved.import_ (by decide)]

theorem templateOf_eq (hf : f.WellFormed) (hd : d.WellFormed) (h : Trails f d) :
    templateOf hs place d = templateOf hs place f := by
  have hvalues := h.erase Reserved.template hf hd Reserved.values (by decide)
  unfold templateOf findTemplate ownValues
  rw [h Reserved.template (by decide), hvalues]

theorem overImports (hf : (Value.dict f).WellFormed) (hd : (Value.dict d).WellFormed)
    (h : Trails f d) : Trails (overImports setting hs f) (overImports setting hs d) := by
  rw [overImports_eq, overImports_eq, h.importedBy_eq]
  exact (h.erase Reserved.import_ hf.root hd.root).layers (clean_erase hf) (clean_erase hd)
    clean_importedBy

end Trails

section Orderly

variable (hhs : hs.Orderly) (hplace : place.Orderly) (hf : (Value.dict f).WellFormed)
  (hd : (Value.dict d).WellFormed)

include hhs hf hd

theorem Trails.beneath_eq (h : Trails f d) :
    beneath setting hs place d = beneath setting hs place f := by
  have hlower : Trails (Compile.overImports setting hs f) (Compile.overImports setting hs d) :=
    h.overImports hf hd
  unfold beneath
  rw [h.importedBy_eq, hlower.templateOf_eq (wellFormed_overImports hhs hf).root
    (wellFormed_overImports hhs hd).root]

include hplace

theorem Trails.overTemplate (h : Trails f d) :
    Trails (overTemplate hs place f) (overTemplate hs place d) := by
  rw [overTemplate_eq, overTemplate_eq, h.templateOf_eq hf.root hd.root]
  exact (h.erase Reserved.template hf.root hd.root).layers (clean_erase hf) (clean_erase hd)
    (clean_templateOf hhs hplace hf)

theorem trails_afterRounds (h : Trails f d) (rounds : Nat) :
    Trails (afterRounds setting hs place rounds f) (afterRounds setting hs place rounds d) := by
  induction rounds with
  | zero => exact h
  | succ rounds ih =>
    have hf' : (Value.dict (afterRounds setting hs place rounds f)).WellFormed :=
      wellFormed_afterRounds hhs hplace hf rounds
    have hd' : (Value.dict (afterRounds setting hs place rounds d)).WellFormed :=
      wellFormed_afterRounds hhs hplace hd rounds
    rw [afterRounds_succ, afterRounds_succ]
    exact (ih.overImports hf' hd').overTemplate hhs hplace (wellFormed_overImports hhs hf')
      (wellFormed_overImports hhs hd')

/-- **A dictionary that leads on as a file does so in all rounds.** -/
theorem unhindered_of_trails (h : Trails f (laidOver setting hs place d)) :
    Unhindered setting hs place d f := by
  intro n g hg
  have htrails : Trails (afterRounds setting hs place n f)
      (afterRounds setting hs place (n + 1) d) :=
    trails_afterRounds hhs hplace hf (wellFormed_laidOver hhs hplace hd) h n
  refine ⟨n + 1, ?_⟩
  rwa [htrails.beneath_eq hhs (wellFormed_afterRounds hhs hplace hf n)
    (wellFormed_afterRounds hhs hplace hd (n + 1))]

end Orderly

/-! ## A file among others -/

/-- **What lets an imported file go through its rounds** below a dictionary, among other files. -/
inductive Undisturbed (setting : Setting σ) (hs : Handles) (place : Place) (d : Dict Value)
    (before after : List (Dict Value)) (f : Dict Value) : Prop
  /-- No template takes part in its rounds, and no file before has an import if it has one. -/
  | untemplated (plain : Untemplated setting hs place f)
      (first : f.contains Reserved.import_ = true →
        ∀ g ∈ before, g.contains Reserved.import_ = false)
  /-- It alone leads on, and not by an import and a template at once. -/
  | alone (idle : Idle (d.erase Reserved.import_)) (others : ∀ g ∈ before ++ after, Idle g)
      (one : f.get? Reserved.import_ = none ∨ f.get? Reserved.template = none)
  /-- It has a template and no import, and nothing hides the template. No other template takes part
  in its rounds, and no other file has an import if it comes to one by the template. -/
  | templated (plain : f.get? Reserved.import_ = none)
      (shown : TemplateShown hs (d.erase Reserved.import_) before after f)
      (rest : Untemplated setting hs place (laidOver setting hs place f))
      (only : (laidOver setting hs place f).contains Reserved.import_ = true →
        ∀ g ∈ before ++ after, g.contains Reserved.import_ = false)

theorem get?_leading_layers (hd : d.WellFormed ∧ d.NullFree)
    (hfs : ∀ f ∈ fs, f.WellFormed ∧ f.NullFree) (hidle : ∀ f ∈ fs, Idle f) :
    ∀ name ∈ leading, (layers hs fs d).get? name = d.get? name := by
  induction fs generalizing d with
  | nil => exact fun _ _ => rfl
  | cons f fs ih =>
    obtain ⟨hf, hfs⟩ := List.forall_mem_cons.mp hfs
    obtain ⟨hidle, hrest⟩ := List.forall_mem_cons.mp hidle
    have hvalues : ownValues hs f = none := hidle.ownValues_eq_none
    intro name hname
    refine (ih (clean_layer hf.1 hf.2) hfs hrest name hname).trans ?_
    rw [layer_eq_merged (.inl hvalues), Dict.get?_merged hd.1 hd.2, hidle name hname,
      Option.or_none]

theorem findSome?_import_eq_none {gs : List (Dict Value)}
    (h : ∀ g ∈ gs, g.contains Reserved.import_ = false) :
    gs.findSome? (·.get? Reserved.import_) = none :=
  List.findSome?_eq_none_iff.mpr fun g hg =>
    Option.isNone_iff_eq_none.mp (Option.isSome_eq_false_iff.mp (h g hg))

theorem mem_beneath_of_template (himport : f.get? Reserved.import_ = none)
    (h : ∀ under, templateOf hs place f = some under →
      templateOf hs place (overImports setting hs d) = some under) :
    ∀ g ∈ beneath setting hs place f, g ∈ beneath setting hs place d := by
  intro g hg
  rw [mem_beneath, importedBy_of_none himport, overImports_of_none himport] at hg
  exact mem_beneath.mpr (.inr (h g (hg.resolve_left List.not_mem_nil)))

section First

variable {before after : List (Dict Value)} (hd : (Value.dict d).WellFormed)
  (hfiles : importedBy setting d = before ++ f :: after)

include hd hfiles

theorem leads_overImports (hfirst : f.contains Reserved.import_ = true →
    ∀ g ∈ before, g.contains Reserved.import_ = false) : Leads f (overImports setting hs d) := by
  intro target htarget
  have hcontains : f.contains Reserved.import_ = true :=
    Option.isSome_iff_exists.mpr ⟨target, htarget⟩
  rw [get?_import_overImports hd, hfiles, List.findSome?_append,
    findSome?_import_eq_none (hfirst hcontains), List.findSome?_cons, htarget, Option.none_or]

theorem trails_overImports (hidle : Idle (d.erase Reserved.import_))
    (hothers : ∀ g ∈ before ++ after, Idle g) : Trails f (overImports setting hs d) := by
  have hclean : ∀ g ∈ before ++ f :: after, g.WellFormed ∧ g.NullFree := hfiles ▸ clean_importedBy
  rw [List.forall_mem_append] at hclean hothers
  obtain ⟨hf, hafter⟩ := List.forall_mem_cons.mp hclean.2
  have hbefore : Idle (layers hs before (d.erase Reserved.import_)) := fun name hname =>
    (get?_leading_layers (clean_erase hd) hclean.1 hothers.1 name hname).trans (hidle name hname)
  have hlayers : overImports setting hs d =
      layers hs after (layer hs f (layers hs before (d.erase Reserved.import_))) := by
    rw [overImports_eq, hfiles]
    exact List.foldl_append
  have hwf : (layers hs before (d.erase Reserved.import_)).WellFormed ∧
      (layers hs before (d.erase Reserved.import_)).NullFree :=
    clean_layers (clean_erase hd) hclean.1
  intro name hname
  rw [hlayers, get?_leading_layers (clean_layer hf.1 hf.2) hafter hothers.2 name hname,
    layer_eq_merged (.inr hbefore.ownValues_eq_none), Dict.get?_merged hwf.1 hwf.2,
    hbefore name hname, Option.none_or]

variable (hhs : hs.Orderly) (hplace : place.Orderly) (hf : (Value.dict f).WellFormed)

include hhs hplace hf

/-- The import that a file comes to by its template is handed on, where no file has one itself. -/
theorem leads_laidOver_of_template (himport : f.get? Reserved.import_ = none)
    (hfound : ∀ under, templateOf hs place f = some under →
      templateOf hs place (overImports setting hs d) = some under)
    (honly : (laidOver setting hs place f).contains Reserved.import_ = true →
      ∀ g ∈ before ++ after, g.contains Reserved.import_ = false) :
    Leads (laidOver setting hs place f) (laidOver setting hs place d) := by
  intro target htarget
  have hothers := honly (Option.isSome_iff_exists.mpr ⟨target, htarget⟩)
  rw [List.forall_mem_append] at hothers
  have hnone : (overImports setting hs d).get? Reserved.import_ = none := by
    rw [get?_import_overImports hd, hfiles, List.findSome?_append,
      findSome?_import_eq_none hothers.1, List.findSome?_cons, himport,
      findSome?_import_eq_none hothers.2]
    rfl
  rw [laidOver, overImports_of_none himport, get?_import_overTemplate hhs hplace hf, himport,
    Option.none_or] at htarget
  rw [laidOver, get?_import_overTemplate hhs hplace (wellFormed_overImports hhs hd), hnone,
    Option.none_or]
  cases hunder : templateOf hs place f with
  | none => rw [hunder] at htarget; cases htarget
  | some under => rwa [hfound under hunder, ← hunder]

/-- **A file that is not disturbed goes through its rounds below the dictionary.** -/
theorem unhindered_of_undisturbed (h : Undisturbed setting hs place d before after f) :
    Unhindered setting hs place d f := by
  have hlower : (Value.dict (overImports setting hs d)).WellFormed := wellFormed_overImports hhs hd
  cases h with
  | untemplated hplain hfirst =>
    have hleads : Leads f (overImports setting hs d) := leads_overImports hd hfiles hfirst
    exact unhindered_of_leads hhs hplace hf hd hplain (hleads.overTemplate hhs hplace hlower)
  | alone hidle hothers hone =>
    have htrails : Trails f (overImports setting hs d) :=
      trails_overImports hd hfiles hidle hothers
    rcases hone with himport | htemplate
    · -- the template is made use of at once, in the round that the file would make
      have hsame : templateOf hs place (overImports setting hs d) = templateOf hs place f :=
        htrails.templateOf_eq hf.root hlower.root
      have hround : Trails (laidOver setting hs place f) (laidOver setting hs place d) := by
        rw [laidOver, overImports_of_none himport]
        exact htrails.overTemplate hhs hplace hf hlower
      exact unhindered_of_laidOver (mem_beneath_of_template himport fun _ => hsame.trans)
        (unhindered_of_trails hhs hplace (wellFormed_laidOver hhs hplace hf) hd hround)
    · have hround : Trails f (laidOver setting hs place d) := by
        rwa [laidOver, overTemplate_of_none ((htrails _ (by decide)).trans htemplate)]
      exact unhindered_of_trails hhs hplace hf hd hround
  | templated himport hshown hrest honly =>
    have hfs : ∀ g ∈ before ++ f :: after, (Value.dict g).WellFormed :=
      hfiles ▸ wellFormed_importedBy
    have hfound : ∀ under, templateOf hs place f = some under →
        templateOf hs place (overImports setting hs d) = some under := by
      rw [overImports_eq, hfiles]
      exact fun under => templateOf_layers hhs (wellFormed_erase hd) hfs hshown
    exact unhindered_of_laidOver (mem_beneath_of_template himport hfound)
      (unhindered_of_leads hhs hplace (wellFormed_laidOver hhs hplace hf) hd hrest
        (leads_laidOver_of_template hd hfiles hhs hplace hf himport hfound honly))

end First

/-! ## Imports -/

/-- **What imported files contribute.** Take a dictionary that imports some files, which are all
found and read, and that comes to a dictionary where nothing leads on after some rounds, no more
than may lie inside one another. Then:

* that dictionary is visited in its stead, and each of its members but the named values is there in
  the end, unless the visit of its value leaves nothing, which a diagnostic says, or leaves null;
* it has all names that any of the files has itself, but perhaps for an import and a template;
* it has all names that a file comes to have in rounds of its own, whichever files and templates
  those lead to, if it is laid over all of these too, as it is if nothing disturbs the file. -/
theorem imports_contribute (setting : Setting σ) (p : Progress σ) (fs : List (Dict Value))
    (rounds : Nat) (hends : p.store.handles.ChainsEnd) (hhs : p.store.handles.Orderly)
    (hplace : place.Orderly) (hd : (Value.dict d).WellFormed)
    (htarget : d.get? Reserved.import_ = some target)
    (hloads : List.Forall₂ (fun t f => Yields setting p.store.handles (some f) (loadImport place t))
      (importTargets target) fs) (hlimit : place.nesting + rounds ≤ revisitLimit)
    (hsettled : hasDirective (afterRounds setting p.store.handles place rounds d) = false) :
    let e := afterRounds setting p.store.handles place rounds d
    (∃ made ≤ rounds, ∃ out q added,
      let inside := (place.atNesting (place.nesting + made)).inScope (ownValues p.store.handles e)
      (expansion (.dict d) place).run setting p = (.ok (some (.dict out)), q) ∧
      ∀ name v, e.get? name = some v → name ≠ Reserved.values → out.contains name = true ∨
        Vanishes setting (p.notes added) v (inside.member name)) ∧
    ∀ before f after, fs = before ++ f :: after → Covers f e ∧
      (Unhindered setting p.store.handles place d f →
        ∀ n, Covers (afterRounds setting p.store.handles place n f) e) ∧
      (Undisturbed setting p.store.handles place d before after f →
        Unhindered setting p.store.handles place d f) := by
  intro e
  refine ⟨?_, ?_⟩
  · have he : (Value.dict e).WellFormed := wellFormed_afterRounds hhs hplace hd rounds
    obtain ⟨made, hmade, hrun⟩ := run_afterRounds setting p.store.handles place (d := d) hlimit
    obtain ⟨added, hrun⟩ := hrun p rfl
    have hstore : (p.notes added).store = p.store := Progress.store_notes
    have hends' : (p.notes added).store.handles.ChainsEnd := by rwa [hstore]
    obtain ⟨out, q, hmembers, hthere⟩ := run_members_of_settled setting
      (place.atNesting (place.nesting + made)) hends' hsettled he.root
    rw [hstore] at hthere
    exact ⟨made, hmade, out, q, added, hrun.trans hmembers, hthere⟩
  · rintro before f after rfl
    have hfiles : importedBy setting d = before ++ f :: after := by
      rw [importedBy, importsOf, htarget]
      exact filterMap_imported?
        (hloads.imp fun t g hload => (yields_loadImport place t).unique hload)
    have hfile : f ∈ importedBy setting d := hfiles ▸ by simp
    have hf : (Value.dict f).WellFormed := wellFormed_importedBy f hfile
    have hbeneath : f ∈ beneath setting p.store.handles place d := mem_beneath.mpr (.inl hfile)
    exact ⟨covers_beneath hhs hplace hd hsettled (n := 0) hbeneath,
      covers_of_unhindered hhs hplace hd hf hsettled hbeneath,
      unhindered_of_undisturbed hd hfiles hhs hplace hf⟩

/-! ## A kitchen -/

theorem not_vanishes_number {p : Progress σ} {v : Value} (hv : v.kind = .number) (place : Place) :
    ¬ Vanishes setting p v place := by
  rintro ⟨result, q, hrun, hresult⟩
  cases v with
  | number n =>
    rw [expansion_leaf (by simp) (by simp) (by simp)] at hrun
    cases hrun
    simp at hresult
  | _ => cases hv

/-- Dishes of which two are made with others, and two by recipes of their own. -/
def kitchen : Compiler MemoryFiles Item :=
  let shelve (files : MemoryFiles) (dish : String × String) :=
    files.insert ⟨"/res/" ++ dish.1⟩ (Bytes.ofString dish.2)
  { Compiler.alone with
    files := [("pie.json", "\x7b\"crust\":1,\"import\":\"dough.json\"\x7d"),
      ("soup.json", "\x7b\"broth\":1,\"import\":\"stock.json\"\x7d"),
      ("dough.json", "\x7b\"flour\":1\x7d"), ("stock.json", "\x7b\"bones\":1\x7d"),
      ("bread.json",
        "\x7b\"template\":\"loaf\",\"values\":\x7b\"loaf\":\x7b\"yeast\":1\x7d\x7d\x7d"),
      ("cake.json", "\x7b\"template\":\"tart\",\"values\":" ++
        "\x7b\"tart\":\x7b\"template\":\"base\"\x7d,\"base\":\x7b\"sugar\":1\x7d\x7d\x7d")].foldl
      shelve .empty }

/-- The setting of its compiles. -/
def inKitchen : Setting Item := kitchen.settingIn ⟨"/res"⟩

/-- Dishes that are served together. -/
def tableOf (dishes : List String) : Dict Value :=
  Dict.ofValues [("import", .list (dishes.map .string))]

/-- A recipe of the cook's own. -/
def rye : Dict Value := Dict.ofValues [("rye", .dict (Dict.ofValues [("seeds", .bool true)]))]

/-- Dishes that are served together with a recipe. -/
def tableWithRye (dishes : List String) : Dict Value :=
  Dict.ofValues [("import", .list (dishes.map .string)), ("values", .dict rye)]

/-- A dish of the kitchen. -/
def dish (name : String) : Dict Value := (imported? inKitchen (.string name)).getD ∅

theorem yields_dish {name : String} (h : (imported? inKitchen (.string name)).isSome = true) :
    Yields inKitchen .empty (some (dish name)) (loadImport (Place.root 0) (.string name)) := by
  obtain ⟨f, hf⟩ := Option.isSome_iff_exists.mp h
  have hdish : some (dish name) = imported? inKitchen (.string name) := by
    unfold dish
    rw [hf]
    rfl
  rw [hdish]
  exact yields_loadImport _ _

theorem wellFormed_dishes (dishes : List String) :
    (Value.list (dishes.map .string)).WellFormed :=
  Value.wellFormed_list (List.forall_mem_map.mpr fun _ _ => Value.wellFormed_leaf nofun nofun)

theorem wellFormed_tableOf (dishes : List String) : (Value.dict (tableOf dishes)).WellFormed :=
  Value.wellFormed_ofValues (List.forall_mem_singleton.mpr (wellFormed_dishes dishes))

theorem wellFormed_tableWithRye (dishes : List String) :
    (Value.dict (tableWithRye dishes)).WellFormed := by
  have hseeds : (Value.dict (Dict.ofValues [("seeds", .bool true)])).WellFormed :=
    Value.wellFormed_ofValues (List.forall_mem_singleton.mpr (Value.wellFormed_leaf nofun nofun))
  have hrye : (Value.dict rye).WellFormed :=
    Value.wellFormed_ofValues (List.forall_mem_singleton.mpr hseeds)
  exact Value.wellFormed_ofValues (List.forall_mem_cons.mpr
    ⟨wellFormed_dishes dishes, List.forall_mem_singleton.mpr hrye⟩)

/-- What comes of a dictionary after some rounds in the kitchen. -/
abbrev cooked (rounds : Nat) (d : Dict Value) : Dict Value :=
  afterRounds inKitchen .empty (Place.root 0) rounds d

/-- What a dictionary may have under a name is a number. -/
def isNumber (d : Dict Value) (name : String) : Bool := (d.get? name).all fun v => v.kind = .number

theorem cooked_pie : (imported? inKitchen (.string "pie.json")).isSome = true ∧
    ((dish "pie.json").get? Reserved.template).isNone = true ∧
    ((dish "pie.json").get? Reserved.values).isNone = true ∧
    ((overImports inKitchen .empty (dish "pie.json")).get? Reserved.template).isNone = true ∧
    hasDirective (cooked 1 (dish "pie.json")) = false ∧
    (cooked 1 (dish "pie.json")).contains "flour" = true := by
  decide +kernel

theorem cooked_soup : (imported? inKitchen (.string "soup.json")).isSome = true ∧
    ((dish "soup.json").get? Reserved.template).isNone = true ∧
    ((dish "soup.json").get? Reserved.values).isNone = true ∧
    (dish "soup.json").contains "broth" = true := by
  decide +kernel

theorem cooked_bread : (imported? inKitchen (.string "bread.json")).isSome = true ∧
    ((dish "bread.json").get? Reserved.import_).isNone = true ∧
    ((dish "bread.json").get? Reserved.template).bind Value.asString? = some "loaf" ∧
    (ownFind .empty (dish "bread.json") "loaf").isSome = true ∧
    hasDirective (cooked 1 (dish "bread.json")) = false ∧
    (cooked 1 (dish "bread.json")).contains "yeast" = true := by
  decide +kernel

theorem cooked_cake : (imported? inKitchen (.string "cake.json")).isSome = true ∧
    ((dish "cake.json").get? Reserved.import_).isNone = true ∧
    (cooked 2 (dish "cake.json")).contains "sugar" = true ∧
    hasDirective (cooked 2 (tableOf ["cake.json"])) = false ∧
    isNumber (cooked 2 (tableOf ["cake.json"])) "sugar" = true := by
  decide +kernel

theorem cooked_table :
    let e := cooked 2 (tableWithRye ["pie.json", "soup.json", "bread.json"])
    hasDirective e = false ∧ isNumber e "flour" = true ∧ isNumber e "broth" = true ∧
      isNumber e "yeast" = true := by
  decide +kernel

theorem untemplated_of_settled (h : hasDirective d = false) : Untemplated setting hs place d := by
  obtain ⟨himport, htemplate⟩ := get?_of_settled h
  intro rounds
  rw [afterRounds_of_settled h, overImports_of_none himport, htemplate]

theorem untemplated_pie : Untemplated inKitchen .empty (Place.root 0) (dish "pie.json") := by
  obtain ⟨-, -, -, hraw, hsettled, -⟩ := cooked_pie
  intro rounds
  cases rounds with
  | zero => exact Option.isNone_iff_eq_none.mp hraw
  | succ rounds =>
    rw [afterRounds_add]
    exact untemplated_of_settled hsettled rounds

/-- The recipe of the bread is found past the cook's own and the other dishes. -/
theorem templateShown_bread (dishes : List String) :
    TemplateShown .empty ((tableWithRye dishes).erase Reserved.import_)
      [dish "pie.json", dish "soup.json"] [] (dish "bread.json") := by
  obtain ⟨-, hpie, hpieValues, -⟩ := cooked_pie
  obtain ⟨-, hsoup, hsoupValues, -⟩ := cooked_soup
  obtain ⟨-, -, hloaf, hown, -⟩ := cooked_bread
  intro path hpath
  obtain rfl : "loaf" = path := Option.some.inj (hloaf.symm.trans hpath)
  have hrye : Spares .empty "loaf" ((tableWithRye dishes).erase Reserved.import_) := by
    intro v hv
    obtain rfl : Value.dict rye = v := Option.some.inj hv
    refine ⟨rye, Handles.toDict?_dict _ _, fun name rest hparse => ?_⟩
    have hhead : Step.parsePath? "loaf" = some [.member "loaf"] := by decide +kernel
    cases hhead.symm.trans hparse
    rfl
  refine ⟨?_, .inr hown⟩
  simp only [List.forall_mem_cons]
  exact ⟨⟨rfl, hrye⟩,
    ⟨Option.isNone_iff_eq_none.mp hpie, .of_none (Option.isNone_iff_eq_none.mp hpieValues)⟩,
    ⟨Option.isNone_iff_eq_none.mp hsoup, .of_none (Option.isNone_iff_eq_none.mp hsoupValues)⟩,
    nofun⟩

theorem undisturbed_bread (dishes : List String) : Undisturbed inKitchen .empty (Place.root 0)
    (tableWithRye dishes) [dish "pie.json", dish "soup.json"] [] (dish "bread.json") := by
  obtain ⟨-, himport, -, -, hbaked, -⟩ := cooked_bread
  rw [cooked, afterRounds_one] at hbaked
  refine .templated (Option.isNone_iff_eq_none.mp himport) (templateShown_bread dishes)
    (untemplated_of_settled hbaked) fun hcontains => ?_
  rw [Dict.contains, (get?_of_settled hbaked).1] at hcontains
  cases hcontains

theorem contains_of_isNumber {out : Dict Value} {p : Progress Item} {inside : Place}
    (hmembers : ∀ name v, d.get? name = some v → name ≠ Reserved.values →
      out.contains name = true ∨ Vanishes inKitchen p v (inside.member name))
    (hname : name ≠ Reserved.values) (hnumber : isNumber d name = true)
    (hthere : d.contains name = true) : out.contains name = true := by
  obtain ⟨v, hget⟩ := Option.isSome_iff_exists.mp hthere
  rw [isNumber, hget] at hnumber
  exact (hmembers name v hget hname).resolve_right
    (not_vanishes_number (of_decide_eq_true hnumber) _)

/-- Served with a recipe of the cook's own: the flour of the pie, which that gets from its dough, of
the soup what it says itself, and the yeast of the bread, which that gets from a template. And of a
cake the sugar, which it gets from a template of its template. -/
theorem imports_contribute_kitchen :
    (∃ out q, (expansion (.dict (tableWithRye ["pie.json", "soup.json", "bread.json"]))
        (Place.root 0)).run inKitchen (Progress.initial .empty) = (.ok (some (.dict out)), q) ∧
      out.contains "flour" = true ∧ out.contains "broth" = true ∧ out.contains "yeast" = true) ∧
    ∃ out q, (expansion (.dict (tableOf ["cake.json"])) (Place.root 0)).run inKitchen
        (Progress.initial .empty) = (.ok (some (.dict out)), q) ∧ out.contains "sugar" = true := by
  have hplace : (Place.root 0).Orderly := nofun
  refine ⟨?_, ?_⟩
  · obtain ⟨hpie, -, -, -, -, hflour⟩ := cooked_pie
    obtain ⟨hsoup, -, -, hbroth⟩ := cooked_soup
    obtain ⟨hbread, -, -, -, -, hyeast⟩ := cooked_bread
    obtain ⟨hsettled, hflours, hbroths, hyeasts⟩ := cooked_table
    obtain ⟨⟨_, -, out, q, _, hrun, hmembers⟩, hfiles⟩ := imports_contribute inKitchen
      (Progress.initial .empty) [dish "pie.json", dish "soup.json", dish "bread.json"] 2
      Handles.chainsEnd_empty Handles.orderly_empty hplace
      (wellFormed_tableWithRye ["pie.json", "soup.json", "bread.json"]) rfl
      (.cons (yields_dish hpie) (.cons (yields_dish hsoup) (.cons (yields_dish hbread) .nil)))
      (by decide) hsettled
    obtain ⟨-, hpieBelow, hpieFree⟩ :=
      hfiles [] (dish "pie.json") [dish "soup.json", dish "bread.json"] rfl
    obtain ⟨hsoupItself, -⟩ := hfiles [dish "pie.json"] (dish "soup.json") [dish "bread.json"] rfl
    obtain ⟨-, hbreadBelow, hbreadFree⟩ :=
      hfiles [dish "pie.json", dish "soup.json"] (dish "bread.json") [] rfl
    have hpies := hpieBelow (hpieFree (.untemplated untemplated_pie fun _ => nofun)) 1
    have hbreads := hbreadBelow (hbreadFree (undisturbed_bread _)) 1
    exact ⟨out, q, hrun,
      contains_of_isNumber hmembers (by decide) hflours
        (hpies "flour" (by decide) (by decide) hflour),
      contains_of_isNumber hmembers (by decide) hbroths
        (hsoupItself "broth" (by decide) (by decide) hbroth),
      contains_of_isNumber hmembers (by decide) hyeasts
        (hbreads "yeast" (by decide) (by decide) hyeast)⟩
  · obtain ⟨hcake, hplain, hsugar, hsettled, hsugars⟩ := cooked_cake
    obtain ⟨⟨_, -, out, q, _, hrun, hmembers⟩, hfiles⟩ := imports_contribute inKitchen
      (Progress.initial .empty) [dish "cake.json"] 2
      Handles.chainsEnd_empty Handles.orderly_empty hplace (wellFormed_tableOf ["cake.json"]) rfl
      (.cons (yields_dish hcake) .nil) (by decide) hsettled
    obtain ⟨-, hbelow, hfree⟩ := hfiles [] (dish "cake.json") [] rfl
    have hidle : Idle ((tableOf ["cake.json"]).erase Reserved.import_) := fun _ _ => rfl
    have himport := Option.isNone_iff_eq_none.mp hplain
    have hcakes := hbelow (hfree (.alone hidle nofun (.inl himport))) 2
    exact ⟨out, q, hrun, contains_of_isNumber hmembers (by decide) hsugars
      (hcakes "sugar" (by decide) (by decide) hsugar)⟩

end Compile

namespace Compiler

open Compile

/-- Whether a compile met no problem, and the names in an entry of its output. -/
def namesAt (compiled : Compiled MemoryFiles Item) (name : String) : Option (Bool × List String) :=
  (output? compiled).bind fun o =>
    ((o.dict.get? name).bind Value.asDict?).map fun d => (o.isOk, d.keys)

/-- What comes of dishes that are served with more of the cook's own. -/
def served (dishes : List String) (own : List (String × Value)) : Option (Bool × List String) :=
  namesAt (kitchen.compileDict .empty
    (Dict.ofValues [("k", .dict ((tableOf dishes).extend own))]) ⟨"/res"⟩) "k"

/-- A template of the cook's own. -/
def salted : List (String × Value) :=
  [("template", .string "own"),
    ("values", .dict (Dict.ofValues [("own", .dict (Dict.ofValues [("salt", .bool true)]))]))]

/-- **What is on top hides what leads on below, and a value that is dropped is not there.** Bread
brings yeast, but not below another template. Soup brings bones, but not next to a pie. And flour of
the cook's own, which is nowhere to be found, hides that of the dough. -/
theorem not_contributed :
    (served ["bread.json"] [] = some (true, ["yeast"]) ∧
      served ["bread.json"] salted = some (true, ["salt"])) ∧
    (served ["soup.json"] [] = some (true, ["bones", "broth"]) ∧
      served ["pie.json", "soup.json"] [] = some (true, ["broth", "crust", "flour"])) ∧
    (served ["dough.json"] [] = some (true, ["flour"]) ∧
      served ["dough.json"] [("flour", .string "value:none")] = some (false, [])) := by
  decide +kernel

end Compiler

end ResourceTree
