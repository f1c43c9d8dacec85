/-!
# Splitting — the parts of a text between separators

* `splitAt sep cs`: the parts of `cs` between the separators, one more than there are separators;
* **`splitAt_join`**: joining the parts with the separator gives the text back.
-/

namespace ResourceTree.Text

/-- The parts of a text between separators. -/
def splitAt (sep : Char) : List Char → List (List Char)
  | [] => [[]]
  | c :: rest =>
    if c = sep then [] :: splitAt sep rest
    else
      match splitAt sep rest with
      | [] => [[c]]
      | part :: parts => (c :: part) :: parts

theorem splitAt_ne_nil (sep : Char) (cs : List Char) : splitAt sep cs ≠ [] := by
  cases cs with
  | nil => simp [splitAt]
  | cons c rest =>
    rw [splitAt]
    split
    · simp
    · split <;> simp

/-- Joining the parts with the separator gives the text back. -/
theorem splitAt_join (sep : Char) (cs : List Char) : [sep].intercalate (splitAt sep cs) = cs := by
  induction cs with
  | nil => simp [splitAt, List.intercalate]
  | cons c rest ih =>
    rw [splitAt]
    cases h : splitAt sep rest with
    | nil => exact absurd h (splitAt_ne_nil sep rest)
    | cons part parts =>
      rw [h] at ih
      by_cases hc : c = sep
      · subst hc
        simp [List.intercalate] at ih ⊢
        exact ih
      · rw [if_neg hc, ← ih]
        cases parts <;> simp [List.intercalate, List.intersperse]

end ResourceTree.Text
