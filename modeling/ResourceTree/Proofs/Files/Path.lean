import Mathlib.Data.String.Basic
import ResourceTree.Files.Path

/-!
# Paths — components, sets of paths, and normal forms

* **`Path.order_eq_iff`**: paths of the same place in the order have the same components;
* `Path.Among`: membership in an ordered set; `among_insertSorted`;
* `Path.ProperName`, `components_ofNames`: what stands between slashes;
* **`normalize_normalize`**, `normalize_congr`: normal forms;
* `Path.Below`, **`below_join`**: a file in a directory.
-/

namespace ResourceTree

namespace Text

theorem splitAt_append_cons (sep : Char) (xs ys : List Char) :
    splitAt sep (xs ++ sep :: ys) = splitAt sep xs ++ splitAt sep ys := by
  induction xs with
  | nil => simp [splitAt]
  | cons c xs ih =>
    rw [List.cons_append, splitAt, ih, splitAt]
    split_ifs with h
    · rfl
    · cases hx : splitAt sep xs with
      | nil => exact absurd hx (splitAt_ne_nil sep xs)
      | cons part parts => rfl

/-- Text without separators goes to the first of the parts that follow. -/
theorem splitAt_append_of_notMem {sep : Char} {xs ys part : List Char}
    {parts : List (List Char)} (h : sep ∉ xs) (hys : splitAt sep ys = part :: parts) :
    splitAt sep (xs ++ ys) = (xs ++ part) :: parts := by
  induction xs with
  | nil => exact hys
  | cons c xs ih =>
    rw [List.mem_cons, not_or] at h
    rw [List.cons_append, splitAt, if_neg (Ne.symm h.1), ih h.2]
    rfl

theorem splitAt_of_notMem {sep : Char} {xs : List Char} (h : sep ∉ xs) :
    splitAt sep xs = [xs] := by
  have halone : splitAt sep (xs ++ []) = [xs ++ []] := splitAt_append_of_notMem h rfl
  rwa [List.append_nil] at halone

theorem notMem_of_mem_splitAt {sep : Char} {xs part : List Char} (h : part ∈ splitAt sep xs) :
    sep ∉ part := by
  induction xs generalizing part with
  | nil => simp [splitAt] at h; simp [h]
  | cons c xs ih =>
    rw [splitAt] at h
    split_ifs at h with hc
    · rcases List.mem_cons.mp h with rfl | h
      · simp
      · exact ih h
    · cases hx : splitAt sep xs with
      | nil => exact absurd hx (splitAt_ne_nil sep xs)
      | cons first parts =>
        rw [hx] at h ih
        rcases List.mem_cons.mp h with rfl | h
        · exact fun hm => (List.mem_cons.mp hm).elim (Ne.symm hc) (ih List.mem_cons_self)
        · exact ih (List.mem_cons_of_mem _ h)

/-- Parts that are joined are found again. -/
theorem splitAt_intercalate {sep : Char} {parts : List (List Char)} (hne : parts ≠ [])
    (h : ∀ part ∈ parts, sep ∉ part) : splitAt sep ([sep].intercalate parts) = parts := by
  induction parts with
  | nil => exact absurd rfl hne
  | cons part rest ih =>
    obtain ⟨hpart, hrest⟩ := List.forall_mem_cons.mp h
    cases rest with
    | nil => simpa using splitAt_of_notMem hpart
    | cons next rest =>
      rw [List.intercalate_cons_cons, List.append_assoc, List.singleton_append,
        splitAt_append_cons, splitAt_of_notMem hpart, ih (List.cons_ne_nil _ _) hrest]
      rfl

end Text

namespace Path

variable {p q dir : Path} {files : List Path} {name : String} {names : List String}

/-! ## Order -/

theorem Component.order_eq_iff {a b : Component} : a.order b = .eq ↔ a = b := by
  cases a <;> cases b <;> simp [order, rank]

theorem orderComponents_eq_iff {as bs : List Component} :
    orderComponents as bs = .eq ↔ as = bs := by
  induction as generalizing bs with
  | nil => cases bs <;> simp [orderComponents]
  | cons a as ih =>
    cases bs with
    | nil => simp [orderComponents]
    | cons b bs => simp [orderComponents, Ordering.then_eq_eq, Component.order_eq_iff, ih]

/-- **Paths of the same place in the order have the same components.** -/
theorem order_eq_iff : p.order q = .eq ↔ p.components = q.components := orderComponents_eq_iff

/-- The path is in a set of paths, up to components. -/
def Among (p : Path) (files : List Path) : Prop := ∃ q ∈ files, p.components = q.components

theorem among_insertSorted_self : p.Among (p.insertSorted files) := by
  induction files with
  | nil => exact ⟨p, List.mem_cons_self, rfl⟩
  | cons q rest ih =>
    rw [insertSorted]
    split
    · exact ⟨p, List.mem_cons_self, rfl⟩
    · next h => exact ⟨q, List.mem_cons_self, order_eq_iff.mp h⟩
    · obtain ⟨r, hr, heq⟩ := ih
      exact ⟨r, List.mem_cons_of_mem _ hr, heq⟩

theorem mem_insertSorted_of_mem (h : q ∈ files) : q ∈ p.insertSorted files := by
  induction files with
  | nil => cases h
  | cons r rest ih =>
    rw [insertSorted]
    split
    · exact List.mem_cons_of_mem _ h
    · exact h
    · rcases List.mem_cons.mp h with rfl | h
      · exact List.mem_cons_self
      · exact List.mem_cons_of_mem _ (ih h)

theorem eq_or_mem_of_mem_insertSorted (h : q ∈ p.insertSorted files) : q = p ∨ q ∈ files := by
  induction files with
  | nil => exact .inl (List.mem_singleton.mp h)
  | cons r rest ih =>
    rw [insertSorted] at h
    split at h
    · exact List.mem_cons.mp h
    · exact .inr h
    · rcases List.mem_cons.mp h with rfl | h
      · exact .inr List.mem_cons_self
      · exact (ih h).imp_right (List.mem_cons_of_mem r)

theorem Among.insertSorted (h : q.Among files) : q.Among (p.insertSorted files) :=
  let ⟨r, hr, heq⟩ := h
  ⟨r, mem_insertSorted_of_mem hr, heq⟩

theorem among_insertSorted_iff :
    q.Among (p.insertSorted files) ↔ q.Among files ∨ q.components = p.components := by
  refine ⟨?_, fun h => h.elim Among.insertSorted fun heq => ?_⟩
  · rintro ⟨r, hr, heq⟩
    rcases eq_or_mem_of_mem_insertSorted hr with rfl | hr
    · exact .inr heq
    · exact .inl ⟨r, hr, heq⟩
  · obtain ⟨r, hr, hself⟩ : p.Among (p.insertSorted files) := among_insertSorted_self
    exact ⟨r, hr, heq.trans hself⟩

/-! ## Components -/

/-- A path is absolute when nothing stands before its first slash. -/
theorem isAbsolute_eq {first : List Char} {rest : List (List Char)}
    (h : Text.splitAt '/' p.text.toList = first :: rest) :
    p.isAbsolute = (first.isEmpty && !rest.isEmpty) := by
  unfold isAbsolute
  cases hcs : p.text.toList with
  | nil =>
    rw [hcs] at h
    obtain ⟨rfl, rfl⟩ := List.cons.inj h
    rfl
  | cons c cs =>
    rw [hcs, Text.splitAt] at h
    have hne := Text.splitAt_ne_nil '/' cs
    split_ifs at h with hc
    · obtain ⟨rfl, rfl⟩ := List.cons.inj h
      simp [hc, hne]
    · cases hs : Text.splitAt '/' cs with
      | nil => exact absurd hs hne
      | cons part parts =>
        rw [hs] at h
        obtain ⟨rfl, rfl⟩ := List.cons.inj h
        simp [hc]

/-- What the first part of a path stands for. -/
def leading (absolute : Bool) (first : List Char) : List Component :=
  if absolute then [.root] else if first = ['.'] then [.current] else (componentOf first).toList

theorem components_eq {first : List Char} {rest : List (List Char)}
    (h : Text.splitAt '/' p.text.toList = first :: rest) :
    p.components = leading p.isAbsolute first ++ rest.filterMap componentOf := by
  unfold components leading
  rw [h]
  dsimp only
  split_ifs <;> rfl

theorem exists_components_eq (p : Path) : ∃ first rest,
    Text.splitAt '/' p.text.toList = first :: rest ∧
      p.components = leading p.isAbsolute first ++ rest.filterMap componentOf := by
  cases h : Text.splitAt '/' p.text.toList with
  | nil => exact absurd h (Text.splitAt_ne_nil _ _)
  | cons first rest => exact ⟨first, rest, rfl, components_eq h⟩

theorem componentOf_ne_root (part : List Char) : componentOf part ≠ some .root := by
  unfold componentOf
  split_ifs <;> simp

theorem isAbsolute_iff : p.isAbsolute = true ↔ .root ∈ p.components := by
  obtain ⟨first, rest, -, hp⟩ := exists_components_eq p
  have hrest : Component.root ∉ rest.filterMap componentOf := fun h => by
    obtain ⟨part, -, hpart⟩ := List.mem_filterMap.mp h
    exact componentOf_ne_root part hpart
  rw [hp, List.mem_append, or_iff_left hrest, leading]
  split_ifs with habs hdot
  · simp [habs]
  · simp [habs]
  · simp [habs, componentOf_ne_root]

theorem isAbsolute_congr (h : p.components = q.components) : p.isAbsolute = q.isAbsolute := by
  rw [Bool.eq_iff_iff, isAbsolute_iff, isAbsolute_iff, h]

/-- **The normal form of a path depends on its components alone.** -/
theorem normalize_congr (h : p.components = q.components) : p.normalize = q.normalize := by
  rw [normalize, normalize, isAbsolute_congr h, normalNames, normalNames, h]

/-! ## Names -/

/-- A name that stands between slashes as itself. -/
structure ProperName (name : String) : Prop where
  noSlash : '/' ∉ name.toList
  isName : componentOf name.toList = some (.normal name)

/-- Longer than `..` is a name. -/
theorem componentOf_of_length (h : 2 < name.toList.length) :
    componentOf name.toList = some (.normal name) := by
  have hne : ∀ part : List Char, part.length ≤ 2 → name.toList ≠ part := fun part hl he =>
    absurd (he ▸ h) (Nat.not_lt.mpr hl)
  unfold componentOf
  rw [if_neg (by simp [hne [] (by decide), hne ['.'] (by decide)]), if_neg (hne _ (by decide)),
    String.ofList_toList]

theorem properName_of_mem_components (h : .normal name ∈ p.components) : ProperName name := by
  have hpart : ∀ part ∈ Text.splitAt '/' p.text.toList,
      componentOf part = some (.normal name) → ProperName name := by
    intro part hmem hname
    have hnormal := hname
    unfold componentOf at hname
    split_ifs at hname
    · cases hname
    · obtain rfl := Component.normal.inj (Option.some.inj hname)
      refine ⟨?_, ?_⟩ <;> rw [String.toList_ofList]
      · exact Text.notMem_of_mem_splitAt hmem
      · exact hnormal
  obtain ⟨first, rest, hsplit, hp⟩ := exists_components_eq p
  rw [hsplit] at hpart
  rw [hp, List.mem_append, leading] at h
  rcases h with h | h
  · split_ifs at h
    · simp at h
    · simp at h
    · exact hpart first List.mem_cons_self (Option.mem_toList.mp h)
  · obtain ⟨part, hmem, hname⟩ := List.mem_filterMap.mp h
    exact hpart part (List.mem_cons_of_mem _ hmem) hname

theorem properName_normalNames (p : Path) : ∀ name ∈ p.normalNames, ProperName name := by
  have hfold : ∀ (cs : List Component) (names : List String),
      (∀ name, .normal name ∈ cs → ProperName name) → (∀ name ∈ names, ProperName name) →
      ∀ name ∈ cs.foldl pushComponent names, ProperName name := by
    intro cs
    induction cs with
    | nil => exact fun names _ hnames => hnames
    | cons c cs ih =>
      intro names hcs hnames
      refine ih _ (fun name hname => hcs name (List.mem_cons_of_mem _ hname)) ?_
      cases c with
      | normal name =>
        rw [pushComponent, List.forall_mem_append]
        exact ⟨hnames, List.forall_mem_singleton.mpr (hcs name List.mem_cons_self)⟩
      | parent => exact fun name hname => hnames name (List.dropLast_subset _ hname)
      | root => exact hnames
      | current => exact hnames
  exact hfold p.components [] (fun name => properName_of_mem_components) nofun

theorem filterMap_componentOf (h : ∀ name ∈ names, ProperName name) :
    (names.map String.toList).filterMap componentOf = names.map .normal := by
  induction names with
  | nil => rfl
  | cons name rest ih =>
    obtain ⟨hname, hrest⟩ := List.forall_mem_cons.mp h
    rw [List.map_cons, List.filterMap_cons, hname.isName, ih hrest]
    rfl

theorem ProperName.toList_ne_nil (h : ProperName name) : name.toList ≠ [] := fun he => by
  have := h.isName
  rw [he] at this
  simp [componentOf] at this

theorem ProperName.toList_ne_dot (h : ProperName name) : name.toList ≠ ['.'] := fun he => by
  have := h.isName
  rw [he] at this
  simp [componentOf] at this

/-! ## Normal forms -/

theorem leading_name (h : ProperName name) : leading false name.toList = [.normal name] := by
  simp [leading, h.toList_ne_dot, h.isName]

theorem toList_ofNames (absolute : Bool) (names : List String) :
    (ofNames absolute names).text.toList =
      (if absolute then ['/'] else []) ++ ['/'].intercalate (names.map String.toList) := by
  cases absolute <;> simp [ofNames, String.toList_intercalate]

/-- The parts of a path of names, behind the slash of an absolute one. -/
theorem splitAt_ofNames (absolute : Bool) (h : ∀ name ∈ names, ProperName name)
    (hne : names ≠ []) : Text.splitAt '/' (ofNames absolute names).text.toList =
      (if absolute then [[]] else []) ++ names.map String.toList := by
  have hsplit : Text.splitAt '/' (['/'].intercalate (names.map String.toList)) =
      names.map String.toList := Text.splitAt_intercalate (by simpa using hne)
    (List.forall_mem_map.mpr fun name hname => (h name hname).noSlash)
  rw [toList_ofNames]
  cases absolute with
  | false => exact hsplit
  | true => exact congrArg ([] :: ·) hsplit

theorem components_ofNames (absolute : Bool) (h : ∀ name ∈ names, ProperName name) :
    (ofNames absolute names).components =
      (if absolute then [.root] else []) ++ names.map .normal := by
  cases names with
  | nil => cases absolute <;> rfl
  | cons name rest =>
    obtain ⟨hname, hrest⟩ := List.forall_mem_cons.mp h
    have hsplit := splitAt_ofNames absolute h (List.cons_ne_nil _ _)
    cases absolute with
    | false =>
      have habs : (ofNames false (name :: rest)).isAbsolute = false := by
        rw [isAbsolute_eq hsplit]
        simp [hname.toList_ne_nil]
      rw [components_eq hsplit, habs, leading_name hname, filterMap_componentOf hrest]
      rfl
    | true =>
      have habs : (ofNames true (name :: rest)).isAbsolute = true := isAbsolute_eq hsplit
      rw [components_eq hsplit, habs]
      exact congrArg (Component.root :: ·) (filterMap_componentOf h)

theorem isAbsolute_ofNames (absolute : Bool) (h : ∀ name ∈ names, ProperName name) :
    (ofNames absolute names).isAbsolute = absolute := by
  rw [Bool.eq_iff_iff, isAbsolute_iff, components_ofNames absolute h]
  cases absolute <;> simp

theorem normalNames_ofNames (absolute : Bool) (h : ∀ name ∈ names, ProperName name) :
    (ofNames absolute names).normalNames = names := by
  have hfold : ∀ done : List String,
      (names.map Component.normal).foldl pushComponent done = done ++ names := by
    clear h
    induction names with
    | nil => simp
    | cons name rest ih =>
      intro done
      rw [List.map_cons, List.foldl_cons, pushComponent, ih, List.append_assoc]
      rfl
  rw [normalNames, components_ofNames absolute h, List.foldl_append]
  cases absolute <;> exact hfold []

theorem isAbsolute_normalize (p : Path) : p.normalize.isAbsolute = p.isAbsolute :=
  isAbsolute_ofNames _ (properName_normalNames p)

theorem normalNames_normalize (p : Path) : p.normalize.normalNames = p.normalNames :=
  normalNames_ofNames _ (properName_normalNames p)

/-- **A normal form is its own normal form.** -/
theorem normalize_normalize (p : Path) : p.normalize.normalize = p.normalize := by
  rw [normalize, isAbsolute_normalize, normalNames_normalize, normalize]

/-! ## Directories -/

/-- The path lies in a directory, or below it. -/
def Below (p dir : Path) : Prop :=
  p.isAbsolute = dir.isAbsolute ∧ dir.normalNames <+: p.normalNames

instance (p dir : Path) : Decidable (p.Below dir) := inferInstanceAs (Decidable (_ ∧ _))

theorem join_eq (h : ProperName name) : dir.join name =
    if dir.text = "" ∨ dir.text.toList.getLast? = some '/' then ⟨dir.text ++ name⟩
    else ⟨dir.text ++ "/" ++ name⟩ := by
  have hrel : (Path.mk name).isAbsolute = false := by
    rw [isAbsolute_eq (Text.splitAt_of_notMem h.noSlash)]
    simp
  simp [join, hrel]

/-- A name that is joined is one part more, which takes the place of an empty last part. -/
theorem exists_splitAt_join (h : ProperName name) (hne : dir.text ≠ "") : ∃ first rest,
    dir.components = leading first.isEmpty first ++ rest.filterMap componentOf ∧
      Text.splitAt '/' (dir.join name).text.toList = first :: (rest ++ [name.toList]) := by
  have hname : Text.splitAt '/' name.toList = [name.toList] := Text.splitAt_of_notMem h.noSlash
  by_cases hend : dir.text.toList.getLast? = some '/'
  · obtain ⟨front, hfront⟩ := List.getLast?_eq_some_iff.mp hend
    obtain ⟨first, rest, hsplit⟩ : ∃ first rest, Text.splitAt '/' front = first :: rest :=
      List.exists_cons_of_ne_nil (Text.splitAt_ne_nil '/' front)
    have hdir : Text.splitAt '/' dir.text.toList = first :: (rest ++ [[]]) := by
      rw [hfront, Text.splitAt_append_cons, hsplit]
      rfl
    have habs : dir.isAbsolute = first.isEmpty := by
      rw [isAbsolute_eq hdir]
      simp
    have hblank : [([] : List Char)].filterMap componentOf = [] := rfl
    refine ⟨first, rest, ?_, ?_⟩
    · rw [components_eq hdir, habs, List.filterMap_append, hblank, List.append_nil]
    · rw [join_eq h, if_pos (.inr hend), String.toList_append, hfront, List.append_assoc]
      exact (Text.splitAt_append_cons '/' front name.toList).trans (by rw [hsplit, hname]; rfl)
  · obtain ⟨first, rest, hsplit, hdir⟩ := exists_components_eq dir
    refine ⟨first, rest, ?_, ?_⟩
    · have hfirst : dir.isAbsolute = first.isEmpty := by
        rw [isAbsolute_eq hsplit]
        cases rest with
        | nil =>
          -- one empty part is the empty path
          have hjoin := Text.splitAt_join '/' dir.text.toList
          rw [hsplit] at hjoin
          cases first with
          | nil => exact absurd (String.toList_inj.mp hjoin.symm) hne
          | cons => rfl
        | cons => simp
      rw [hdir, hfirst]
    · rw [join_eq h, if_neg (not_or.mpr ⟨hne, hend⟩), String.toList_append, String.toList_append,
        List.append_assoc]
      exact (Text.splitAt_append_cons '/' dir.text.toList name.toList).trans
        (by rw [hsplit, hname]; rfl)

theorem components_join (h : ProperName name) :
    (dir.join name).components = dir.components ++ [.normal name] := by
  by_cases hne : dir.text = ""
  · have hname : Text.splitAt '/' name.toList = [name.toList] := Text.splitAt_of_notMem h.noSlash
    obtain rfl : dir = ⟨""⟩ := congrArg Path.mk hne
    have hrel : (Path.mk name).isAbsolute = false := by
      rw [isAbsolute_eq hname]
      simp
    rw [join_eq h, if_pos (.inl rfl), String.empty_append, components_eq hname, hrel,
      leading_name h]
    rfl
  · obtain ⟨first, rest, hdir, hjoin⟩ := exists_splitAt_join h hne
    have habs : (dir.join name).isAbsolute = first.isEmpty := by
      rw [isAbsolute_eq hjoin]
      simp
    rw [components_eq hjoin, habs, hdir, List.filterMap_append, List.append_assoc]
    simp [h.isName]

theorem normalNames_join (h : ProperName name) :
    (dir.join name).normalNames = dir.normalNames ++ [name] := by
  rw [normalNames, components_join h, List.foldl_append]
  rfl

/-- **A file in a directory lies below it.** -/
theorem below_join (h : ProperName name) : (dir.join name).Below dir := by
  refine ⟨?_, ?_⟩
  · rw [Bool.eq_iff_iff, isAbsolute_iff, isAbsolute_iff, components_join h]
    simp
  · rw [normalNames_join h]
    exact List.prefix_append _ _

end Path

end ResourceTree
