import PackageRecipe.Text.Blank

/-!
# Escapes in strings

`decode` reads the body of a double-quoted string, `encode` writes one. Main
statement: `decode_encode`.
-/

namespace PackageRecipe.Sdl.Escape

open PackageRecipe.Text

/-- The character that a backslash before `c` stands for. -/
def escaped (c : Char) : Char :=
  match c with
  | 'n' => '\n'
  | 't' => '\t'
  | 'r' => '\r'
  | c => c

/-- What a string body may continue with. -/
inductive Place where
  /-- Any character. -/
  | body
  /-- The character after a backslash. -/
  | escape
  /-- After an escaped line end, whose following blanks are skipped. -/
  | indent
deriving DecidableEq, Repr

/-- Decodes a string body from the given place on. A backslash before a line
end joins the two lines and drops the blanks between them; before any other
character it stands for `escaped` of it; at the end it stands for itself. -/
def decodeFrom : Place → List Char → List Char
  | .body, [] => []
  | .escape, [] => ['\\']
  | .indent, [] => []
  | .escape, c :: r =>
    if c = '\r' ∨ c = '\n' then decodeFrom .indent r else escaped c :: decodeFrom .body r
  | .body, c :: r => if c = '\\' then decodeFrom .escape r else c :: decodeFrom .body r
  | .indent, c :: r =>
    if isBlank c then decodeFrom .indent r
    else if c = '\\' then decodeFrom .escape r
    else c :: decodeFrom .body r

/-- The text that a string body stands for. -/
def decode (body : List Char) : List Char :=
  decodeFrom .body body

/-- How one character is written in a string body. -/
def encodeChar (c : Char) : List Char :=
  match c with
  | '\\' => ['\\', '\\']
  | '"' => ['\\', '"']
  | '\n' => ['\\', 'n']
  | '\t' => ['\\', 't']
  | '\r' => ['\\', 'r']
  | c => [c]

/-- A string body that stands for the given text. -/
def encode (text : List Char) : List Char :=
  text.flatMap encodeChar

theorem decode_encodeChar_append (c : Char) (r : List Char) :
    decode (encodeChar c ++ r) = c :: decode r := by
  unfold encodeChar
  split
  case h_6 h _ _ _ _ =>
    have h : c ≠ '\\' := h
    simp [decode, decodeFrom, h]
  all_goals simp [decode, decodeFrom, escaped]

/-- What was written reads back. -/
theorem decode_encode (text : List Char) : decode (encode text) = text := by
  induction text with
  | nil => rfl
  | cons c r ih =>
    rw [encode, List.flatMap_cons, decode_encodeChar_append]
    exact congrArg _ ih

end PackageRecipe.Sdl.Escape
