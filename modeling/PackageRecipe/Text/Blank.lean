/-!
# Blank characters

The characters with the Unicode property `White_Space`, and the two cuts of a
text that depend on them: trimming both ends and splitting into words.
-/

namespace PackageRecipe.Text

/-- A character with the Unicode property `White_Space`. -/
def isBlank (c : Char) : Bool :=
  let n := c.toNat
  (9 ≤ n && n ≤ 13) || n == 0x20 || n == 0x85 || n == 0xA0 || n == 0x1680 ||
    (0x2000 ≤ n && n ≤ 0x200A) || n == 0x2028 || n == 0x2029 || n == 0x202F ||
    n == 0x205F || n == 0x3000

/-- A text without the blanks at its two ends. -/
def trim (cs : List Char) : List Char :=
  ((cs.dropWhile isBlank).reverse.dropWhile isBlank).reverse

/-- Adds a character in front of a list of words: a blank closes the word on
its right, any other character extends it. The first word may be empty. -/
def consWord (c : Char) : List (List Char) → List (List Char)
  | [] => if isBlank c then [[], []] else [[c]]
  | w :: ws => if isBlank c then [] :: w :: ws else (c :: w) :: ws

/-- The maximal runs of characters that are not blank, in order. -/
def words (cs : List Char) : List (List Char) :=
  (cs.foldr consWord [[]]).filter (· ≠ [])

/-- Every character that core calls whitespace is blank. -/
theorem isBlank_of_isWhitespace {c : Char} (h : c.isWhitespace) : isBlank c := by
  simp only [Char.isWhitespace, Bool.or_eq_true, decide_eq_true_eq] at h
  rcases h with ((rfl | rfl) | rfl) | rfl <;> rfl

end PackageRecipe.Text
