/-!
# Splitting

A text as the parts between separators, be it of characters or of bytes. Main statement:
`intercalate_splitOn`.
-/

namespace PackageRecipe.Text

variable {α : Type} [DecidableEq α]

/-- The parts of a text between separators, one more than there are separators. -/
def splitOn (separator : α) : List α → List (List α)
  | [] => [[]]
  | c :: r =>
    if c = separator then [] :: splitOn separator r
    else
      match splitOn separator r with
      | [] => [[c]]
      | part :: parts => (c :: part) :: parts

theorem splitOn_ne_nil (separator : α) (text : List α) : splitOn separator text ≠ [] := by
  cases text with
  | nil => simp [splitOn]
  | cons c r =>
    unfold splitOn
    split
    · simp
    · split <;> simp

/-- The parts with the separators between them are the text. -/
theorem intercalate_splitOn (separator : α) (text : List α) :
    [separator].intercalate (splitOn separator text) = text := by
  induction text with
  | nil => rfl
  | cons c r ih =>
    have ne := splitOn_ne_nil separator r
    unfold splitOn
    cases parts : splitOn separator r with
    | nil => exact absurd parts ne
    | cons part others =>
      rw [parts] at ih
      by_cases h : c = separator
      · subst h
        simp only [if_true]
        rw [List.intercalate_cons_cons, ih]
        rfl
      · simp only [h, if_false]
        cases others with
        | nil => simpa [List.intercalate] using ih
        | cons p ps =>
          rw [List.intercalate_cons_cons] at ih ⊢
          rw [List.cons_append, List.cons_append, ih]

end PackageRecipe.Text
