/-!
# Spans of a text

Places in a text are counted in bytes of its UTF-8 encoding. A `Span` is a pair
of such places; `width` measures a list of characters, and `takeBytes` cuts a
text at a place, which it moves back to the start of a character.
-/

namespace PackageRecipe.Text

/-- A stretch of a text from one byte offset up to another. -/
structure Span where
  start : Nat
  stop : Nat
deriving DecidableEq, Repr, Inhabited

/-- The number of bytes that a list of characters takes in UTF-8. -/
def width (cs : List Char) : Nat :=
  cs.foldr (fun c n => c.utf8Size + n) 0

@[simp] theorem width_nil : width [] = 0 := rfl

@[simp] theorem width_cons (c : Char) (cs : List Char) : width (c :: cs) = c.utf8Size + width cs := rfl

@[simp] theorem width_append (cs ds : List Char) : width (cs ++ ds) = width cs + width ds := by
  induction cs with
  | nil => simp
  | cons c r ih => simp [ih, Nat.add_assoc]

/-- A text with at least one character has positive width. -/
theorem width_pos {cs : List Char} (h : cs ≠ []) : 0 < width cs := by
  cases cs with
  | nil => exact absurd rfl h
  | cons c r => have := c.utf8Size_pos; simp only [width_cons]; omega

/-- The longest beginning of a text that takes at most `n` bytes. -/
def takeBytes (n : Nat) : List Char → List Char
  | [] => []
  | c :: r => if c.utf8Size ≤ n then c :: takeBytes (n - c.utf8Size) r else []

/-- What `takeBytes` leaves. -/
def dropBytes (n : Nat) : List Char → List Char
  | [] => []
  | c :: r => if c.utf8Size ≤ n then dropBytes (n - c.utf8Size) r else c :: r

theorem takeBytes_append_dropBytes (n : Nat) (cs : List Char) :
    takeBytes n cs ++ dropBytes n cs = cs := by
  induction cs generalizing n with
  | nil => rfl
  | cons c r ih => by_cases h : c.utf8Size ≤ n <;> simp [takeBytes, dropBytes, h, ih]

/-- A cut between two characters is kept. -/
theorem takeBytes_width_append (cs ds : List Char) : takeBytes (width cs) (cs ++ ds) = cs := by
  induction cs with
  | nil =>
    cases ds with
    | nil => rfl
    | cons d r => have := d.utf8Size_pos; simp [takeBytes]; omega
  | cons c r ih => simp [takeBytes, ih]

theorem dropBytes_width_append (cs ds : List Char) : dropBytes (width cs) (cs ++ ds) = ds := by
  have all := takeBytes_append_dropBytes (width cs) (cs ++ ds)
  rw [takeBytes_width_append] at all
  exact List.append_cancel_left all

end PackageRecipe.Text
