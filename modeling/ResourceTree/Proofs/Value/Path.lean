import Mathlib.Data.String.Basic
import ResourceTree.Proofs.Files.Path
import ResourceTree.Proofs.Walk.Reports

/-!
# Written paths — the way back from a diagnostic to its node

The path of a place is written for people, and read again where a value is looked up by a path.
Brackets follow a name or one another, and a slash stands before every name, so what was written can
be read again as long as no name holds a slash or an opening bracket.

* `Step.Readable`: steps that can be told apart once they are written;
* `parseIndex?_toDigits`, `parseIndices?_render`, `parseSegment?_member`: indices, and what stands
  between slashes;
* `readParts`, `splitAt_render`, **`Step.parsePath?_render`**: what was written is read as it was;
* `Handles.MetWithin`, **`findPath_pathText`**: the path of a place leads to the node that a walk
  met there.
-/

namespace ResourceTree

namespace Step

variable {cs rest : List Char} {name : String} {i : Nat} {path : List Step}

/-- **A step that can be read again**: a name that is not empty and holds neither a slash nor an
opening bracket, or an index that fits in 64 bits, as the indices of lists do. -/
def Readable : Step → Prop
  | member name => name ≠ "" ∧ '/' ∉ name.toList ∧ '[' ∉ name.toList
  | element index => index < Nat.pow 2 64

instance (step : Step) : Decidable step.Readable := by
  unfold Readable
  split <;> infer_instance

/-! ## Indices -/

theorem isDigit_of_mem_digits {c : Char} (h : c ∈ Nat.toDigits 10 i) : c.isDigit = true :=
  Nat.isDigit_of_mem_toDigits (by decide) (by decide) h

theorem isBlank_of_isDigit {c : Char} (h : c.isDigit = true) : Text.isBlank c = false := by
  simp only [Char.isDigit, Bool.and_eq_true, decide_eq_true_eq, UInt32.le_iff_toNat_le] at h
  simp only [Text.isBlank, Char.toNat, Bool.or_eq_false_iff, Bool.and_eq_false_iff,
    decide_eq_false_iff_not]
  have hlow : '0'.val.toNat = 48 := rfl
  have hhigh : '9'.val.toNat = 57 := rfl
  omega

theorem trim_of_forall (h : ∀ c ∈ cs, Text.isBlank c = false) : Text.trim cs = cs := by
  have hdrop : ∀ ds : List Char, (∀ c ∈ ds, Text.isBlank c = false) →
      ds.dropWhile Text.isBlank = ds := by
    intro ds hds
    cases ds with
    | nil => rfl
    | cons c ds => rw [List.dropWhile_cons, hds c List.mem_cons_self]; rfl
  rw [Text.trim, hdrop cs h, hdrop _ fun c hc => h c (List.mem_reverse.mp hc), List.reverse_reverse]

theorem parseIndex?_toDigits (h : i < Nat.pow 2 64) :
    parseIndex? (Nat.toDigits 10 i) = some i := by
  have hdigit : ∀ c ∈ Nat.toDigits 10 i, c.isDigit = true := fun _ => isDigit_of_mem_digits
  have hvalue : Number.digitsValue (Nat.toDigits 10 i) = i := Nat.ofDigitChars_ten_toDigits
  have hne : Nat.toDigits 10 i ≠ [] := Nat.toDigits_ne_nil
  rw [parseIndex?, trim_of_forall fun c hc => isBlank_of_isDigit (hdigit c hc)]
  split
  -- no digit is a sign
  · next digits heq =>
    have hplus := hdigit '+' (by rw [heq]; exact List.mem_cons_self)
    cases hplus
  · rw [if_neg, hvalue, if_pos h]
    simpa [hne] using hdigit

theorem toList_text_element : (element i).text.toList = '[' :: (Nat.toDigits 10 i ++ [']']) := by
  simp [text, Nat.toString_eq_repr]

theorem toList_text_member : (member name).text.toList = '/' :: name.toList := by
  simp [text]

theorem toList_render_cons (step : Step) :
    (render (step :: path)).toList = step.text.toList ++ (render path).toList := by
  rw [render_cons, String.toList_append]

/-! ## Between slashes -/

theorem parseIndices?_bracket (h : i < Nat.pow 2 64) (fuel : Nat) :
    parseIndices? (fuel + 1) ((element i).text.toList ++ cs) =
      (parseIndices? fuel cs).map (element i :: ·) := by
  have hclose : ∀ c ∈ Nat.toDigits 10 i, decide (c ≠ ']') = true := fun c hc => by
    have hdigit := isDigit_of_mem_digits hc
    refine decide_eq_true fun heq => ?_
    rw [heq] at hdigit
    cases hdigit
  have htext : (element i).text.toList ++ cs = '[' :: (Nat.toDigits 10 i ++ ']' :: cs) := by
    rw [toList_text_element, List.cons_append, List.append_assoc, List.singleton_append]
  rw [htext, parseIndices?]
  have htake : (Nat.toDigits 10 i ++ ']' :: cs).takeWhile (· ≠ ']') = Nat.toDigits 10 i := by
    rw [List.takeWhile_append_of_pos hclose, List.takeWhile_cons]
    simp
  have hdrop : (Nat.toDigits 10 i ++ ']' :: cs).dropWhile (· ≠ ']') = ']' :: cs := by
    rw [List.dropWhile_append_of_pos hclose, List.dropWhile_cons]
    simp
  simp only [htake, hdrop, parseIndex?_toDigits h]
  cases parseIndices? fuel cs <;> rfl

/-- Steps to elements only. -/
def Elements (path : List Step) : Prop := ∀ step ∈ path, ∃ i, step = element i

/-- **A run of indices is read as it was written.** -/
theorem parseIndices?_render {fuel : Nat} (helements : Elements path)
    (hread : ∀ step ∈ path, step.Readable) (hfuel : (render path).toList.length ≤ fuel) :
    parseIndices? fuel (render path).toList = some path := by
  induction path generalizing fuel with
  | nil => cases fuel <;> rfl
  | cons step rest ih =>
    obtain ⟨⟨i, rfl⟩, hrest⟩ := List.forall_mem_cons.mp helements
    obtain ⟨hi, hread⟩ := List.forall_mem_cons.mp hread
    rw [toList_render_cons] at hfuel ⊢
    have hlong : 1 ≤ (element i).text.toList.length := by
      rw [toList_text_element]
      exact Nat.succ_le_succ (Nat.zero_le _)
    rw [List.length_append] at hfuel
    obtain ⟨fuel, rfl⟩ : ∃ n, fuel = n + 1 := ⟨fuel - 1, by omega⟩
    rw [parseIndices?_bracket hi, ih hrest hread (by omega)]
    rfl

theorem takeWhile_render (helements : Elements path) :
    (render path).toList.takeWhile (· ≠ '[') = [] := by
  cases path with
  | nil => rfl
  | cons step rest =>
    obtain ⟨⟨i, rfl⟩, -⟩ := List.forall_mem_cons.mp helements
    rw [toList_render_cons, toList_text_element]
    rfl

theorem dropWhile_render (helements : Elements path) :
    (render path).toList.dropWhile (· ≠ '[') = (render path).toList := by
  conv_rhs => rw [← List.takeWhile_append_dropWhile (p := (· ≠ '[')) (l := (render path).toList)]
  rw [takeWhile_render helements, List.nil_append]

theorem parseSegment?_elements (helements : Elements path) (hread : ∀ step ∈ path, step.Readable) :
    parseSegment? (render path).toList = some path := by
  have hindices := parseIndices?_render helements hread (Nat.le_refl _)
  simp only [parseSegment?, takeWhile_render helements, dropWhile_render helements, hindices]
  rfl

theorem parseSegment?_member (hname : (member name).Readable) (helements : Elements path)
    (hread : ∀ step ∈ path, step.Readable) :
    parseSegment? (name.toList ++ (render path).toList) = some (member name :: path) := by
  obtain ⟨hne, -, hbracket⟩ := hname
  have hopen : ∀ c ∈ name.toList, decide (c ≠ '[') = true := fun c hc =>
    decide_eq_true fun heq => hbracket (heq ▸ hc)
  have hindices := parseIndices?_render helements hread (Nat.le_refl _)
  have hempty : name.toList.isEmpty = false := by
    simpa [List.isEmpty_eq_false_iff] using hne
  simp only [parseSegment?, List.takeWhile_append_of_pos hopen, List.dropWhile_append_of_pos hopen,
    takeWhile_render helements, dropWhile_render helements, hindices, List.append_nil, hempty]
  simp

/-! ## Whole paths -/

/-- What the parts between slashes are read as. -/
def readParts (parts : List (List Char)) : Option (List Step) :=
  List.flatten <$> (parts.filter (!·.isEmpty)).mapM parseSegment?

theorem readParts_cons {part : List Char} {steps rest : List Step} {parts : List (List Char)}
    (hne : part ≠ []) (hpart : parseSegment? part = some steps)
    (hparts : readParts parts = some rest) : readParts (part :: parts) = some (steps ++ rest) := by
  obtain ⟨found, hfound, rfl⟩ := Option.map_eq_some_iff.mp hparts
  have hkeep : (part :: parts).filter (!·.isEmpty) = part :: parts.filter (!·.isEmpty) :=
    List.filter_cons_of_pos (by simpa using hne)
  rw [readParts, hkeep, List.mapM_cons, hpart, hfound]
  rfl

theorem slash_notMem_text_element : '/' ∉ (element i).text.toList := by
  have hdigits : '/' ∉ Nat.toDigits 10 i := fun hmem => by
    have hdigit := isDigit_of_mem_digits hmem
    cases hdigit
  rw [toList_text_element]
  simp [hdigits]

/-- Between its first slash and what stands before it, a written path is one of elements; the parts
behind are read as the rest of the path. -/
theorem splitAt_render (hread : ∀ step ∈ path, step.Readable) : ∃ leading rest parts,
    path = leading ++ rest ∧ Elements leading ∧
      Text.splitAt '/' (render path).toList = (render leading).toList :: parts ∧
      readParts parts = some rest := by
  induction path with
  | nil => exact ⟨[], [], [], rfl, nofun, rfl, rfl⟩
  | cons step path ih =>
    obtain ⟨hstep, hread⟩ := List.forall_mem_cons.mp hread
    obtain ⟨leading, rest, parts, rfl, helements, hsplit, hparts⟩ := ih hread
    have hleading : ∀ step ∈ leading, step.Readable := fun s hs =>
      hread s (List.mem_append_left _ hs)
    cases step with
    | member name =>
      obtain ⟨hne, hslash, -⟩ := id hstep
      refine ⟨[], member name :: (leading ++ rest), _, rfl, nofun, ?_,
        readParts_cons ?_ (parseSegment?_member hstep helements hleading) hparts⟩
      · rw [toList_render_cons, toList_text_member, List.cons_append, Text.splitAt, if_pos rfl,
          Text.splitAt_append_of_notMem hslash hsplit]
        rfl
      · exact List.append_ne_nil_of_left_ne_nil (by simpa using hne) _
    | element i =>
      refine ⟨element i :: leading, rest, parts, rfl, ?_, ?_, hparts⟩
      · exact List.forall_mem_cons.mpr ⟨⟨i, rfl⟩, helements⟩
      · rw [toList_render_cons, toList_render_cons,
          Text.splitAt_append_of_notMem slash_notMem_text_element hsplit]

/-- **What was written is read as it was.** -/
theorem parsePath?_render (hread : ∀ step ∈ path, step.Readable) :
    parsePath? (render path) = some path := by
  obtain ⟨leading, rest, parts, rfl, helements, hsplit, hparts⟩ := splitAt_render hread
  show readParts (Text.splitAt '/' (render (leading ++ rest)).toList) = _
  rw [hsplit]
  cases leading with
  | nil => exact hparts
  | cons step leading =>
    have hne : (render (step :: leading)).toList ≠ [] := by
      obtain ⟨⟨i, rfl⟩, -⟩ := List.forall_mem_cons.mp helements
      rw [toList_render_cons, toList_text_element]
      exact List.cons_ne_nil _ _
    exact readParts_cons hne (parseSegment?_elements helements fun s hs =>
      hread s (List.mem_append_left _ hs)) hparts

end Step

/-! ## Back to the node -/

namespace Handles

variable {hs : Handles} {v : Value} {path : List Step}

theorem descend_concat (step : Step) :
    hs.descend v (path ++ [step]) = (hs.descend v path).bind fun w => hs.child? w step := by
  simp only [descend, List.foldlM_append, List.foldlM_cons, List.foldlM_nil, bind_pure]
  rfl

/-- The nodes that a walk meets through members and elements, where nothing stands for another. -/
abbrev MetWithin (root : Value) (path : List Step) (v : Value) : Prop :=
  Met (fun _ _ _ => False) root path v

/-- The steps to a node of a tree lead to that node. -/
theorem descend_of_met {root : Value} (hwf : root.WellFormed) (hmet : MetWithin root path v) :
    hs.descend root path = some v ∧ v.WellFormed := by
  induction hmet with
  | root => exact ⟨rfl, hwf⟩
  | @member path d name v _ entry ih =>
    obtain ⟨hdescend, hd⟩ := ih
    refine ⟨?_, hd.member entry⟩
    rw [descend_concat, hdescend, Option.bind_some]
    exact (Dict.get?_eq_some_iff hd.root).mpr entry
  | @element path items i v _ item ih =>
    obtain ⟨hdescend, hitems⟩ := ih
    refine ⟨?_, hitems.item (List.mem_of_getElem? item)⟩
    rw [descend_concat, hdescend, Option.bind_some]
    exact item
  | stead _ standing => exact standing.elim

/-- **The path of a place leads back to its node**: for every node below a dictionary that a walk
meets through members and elements, at the place where it meets it, if no name on the way is empty
or holds a slash or an opening bracket. -/
theorem findPath_pathText (hs : Handles) {tree : Dict Value} {place : Place}
    (hwf : (Value.dict tree).WellFormed)
    (hmet : MetWithin (.dict tree) place.path v) (hbelow : place.isRoot = false)
    (hread : ∀ step ∈ place.path, step.Readable) :
    hs.findPath tree place.pathText = some v := by
  obtain ⟨step, rest, hpath⟩ : ∃ step rest, place.path = step :: rest := by
    refine List.exists_cons_of_ne_nil fun hnil => ?_
    rw [Place.isRoot, List.isEmpty_eq_false_iff] at hbelow
    exact hbelow (List.reverse_eq_nil_iff.mp hnil)
  have hdescend : hs.descend _ _ = _ := (descend_of_met hwf hmet).1
  rw [findPath, Place.pathText, Step.parsePath?_render hread]
  rw [hpath] at hdescend ⊢
  exact hdescend

/-- A dictionary inside two lists, below a name with a closing bracket and a blank in it. -/
def shelved : Dict Value := Dict.ofValues
  [("größe ]", .list [.null, .list [.dict (Dict.ofValues [("+1", .bool true)])]])]

/-- Where a walk meets the flag in it. -/
def shelvedPlace : Place := ((((Place.root 0).member "größe ]").element 1).element 0).member "+1"

theorem findPath_pathText_shelved :
    MetWithin (.dict shelved) shelvedPlace.path (.bool true) ∧
      shelvedPlace.pathText = "/größe ][1][0]/+1" ∧
      empty.findPath shelved shelvedPlace.pathText = some (.bool true) := by
  have hmet : MetWithin (.dict shelved) shelvedPlace.path (.bool true) := by
    have hroot : MetWithin (.dict shelved) [] (.dict shelved) := .root
    have hname := hroot.member (List.mem_singleton_self _)
    have hinner := (hname.element (i := 1) rfl).element (i := 0) rfl
    exact hinner.member (List.mem_singleton_self _)
  have hwf : (Value.dict shelved).WellFormed := by
    refine Value.wellFormed_ofValues (List.forall_mem_singleton.mpr (Value.wellFormed_list ?_))
    refine List.forall_mem_cons.mpr ⟨by rintro d ⟨⟩, List.forall_mem_singleton.mpr ?_⟩
    refine Value.wellFormed_list (List.forall_mem_singleton.mpr (Value.wellFormed_ofValues ?_))
    exact List.forall_mem_singleton.mpr (by rintro d ⟨⟩)
  refine ⟨hmet, by decide +kernel, findPath_pathText empty hwf hmet rfl (by decide +kernel)⟩

end Handles

end ResourceTree
