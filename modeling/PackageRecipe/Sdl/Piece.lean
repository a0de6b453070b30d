import PackageRecipe.Sdl.Numeral
import PackageRecipe.Sdl.Problem
import PackageRecipe.Text.Letter

/-!
# Pieces of a text

A text falls into pieces: tokens, blanks, line continuations and comments.
`Piece.split` cuts it, `Piece.first` decides how far the first piece reaches.
Nothing is lost: `flatten_split`.
-/

namespace PackageRecipe.Sdl

open PackageRecipe.Text

/-- The kinds of tokens. -/
inductive TokenKind where
  | identifier
  /-- A string, raw between back quotes or else between double quotes. -/
  | string (raw terminated : Bool)
  | number
  | date
  | duration
  | binary (terminated : Bool)
  | colon
  | equals
  | leftBrace
  | rightBrace
  | semicolon
  | newline
  /-- A character that begins no other token. -/
  | unknown
deriving DecidableEq, Repr

/-- What a piece of a text is. -/
inductive PieceKind where
  | token (kind : TokenKind)
  | blank
  /-- A backslash with the blanks behind it. It continues the line if a line
  feed, which then belongs to it, or the end of the text follows. -/
  | continuation (joined : Bool)
  /-- A comment up to the end of the line. -/
  | lineComment
  | blockComment (terminated : Bool)
deriving DecidableEq, Repr

/-- A stretch of a text that is read as a whole. -/
structure Piece where
  kind : PieceKind
  text : List Char
deriving DecidableEq, Repr

namespace Piece

/-- A blank within a line. -/
def isLineBlank (c : Char) : Bool :=
  c == ' ' || c == '\t' || c == '\r'

/-- A character that begins an identifier. -/
def isIdentifierStart (c : Char) : Bool :=
  isLetter c || c == '_'

/-- A character that continues an identifier. -/
def isIdentifierChar (c : Char) : Bool :=
  isLetterOrNumber c || c == '_' || c == '-' || c == '.' || c == '$'

/-- The number of characters at the head of a text that belong to a class. -/
def run (p : Char → Bool) (s : List Char) : Nat :=
  (s.takeWhile p).length

/-- How far a double-quoted string reaches behind its opening quote, and whether
it is closed there. A backslash takes the next character with it, or a carriage
return and the character after that; the string stops before a line feed. -/
def quoted : List Char → Nat × Bool
  | [] => (0, false)
  | '\n' :: _ => (0, false)
  | '"' :: _ => (1, true)
  | ['\\'] => (1, false)
  | ['\\', '\r'] => (2, false)
  | '\\' :: '\r' :: _ :: r => let (n, closed) := quoted r; (n + 3, closed)
  | '\\' :: _ :: r => let (n, closed) := quoted r; (n + 2, closed)
  | _ :: r => let (n, closed) := quoted r; (n + 1, closed)

/-- How far a text reaches up to and with the character `close`. -/
def upTo (close : Char) : List Char → Nat × Bool
  | [] => (0, false)
  | c :: r => if c = close then (1, true) else let (n, closed) := upTo close r; (n + 1, closed)

/-- How far a block comment reaches behind its opening. -/
def blockBody : List Char → Nat × Bool
  | [] => (0, false)
  | '*' :: '/' :: _ => (2, true)
  | _ :: r => let (n, closed) := blockBody r; (n + 1, closed)

/-- How far a line continuation reaches behind its backslash. -/
def continuationBody (s : List Char) : Nat × Bool :=
  let n := run isLineBlank s
  match s.drop n with
  | [] => (n, true)
  | c :: _ => if c = '\n' then (n + 1, true) else (n, false)

/-- The kind of the numeral that begins with `c`, and how far it reaches behind
it: as far as numeral characters go, and over a time of day after a date. -/
def numeral (c : Char) (s : List Char) : TokenKind × Nat :=
  let n := run Numeral.isNumeralChar s
  let text := c :: s.take n
  if Numeral.date.accepts text then (.date, n + (Numeral.timeOfDay.longest (s.drop n)).getD 0)
  else if Numeral.duration.accepts text then (.duration, n)
  else (.number, n)

/-- Whether the next character is an ASCII digit. -/
def digitFollows (s : List Char) : Bool :=
  s.head?.any Char.isDigit

/-- The kind of the piece at the head of the text `c :: s`, and the number of
characters of `s` that belong to it. -/
def first (c : Char) (s : List Char) : PieceKind × Nat :=
  match c with
  | '\n' => (.token .newline, 0)
  | ' ' => (.blank, 0)
  | '\t' => (.blank, 0)
  | '\r' => (.blank, 0)
  | '\\' => let (n, joined) := continuationBody s; (.continuation joined, n)
  | '#' => (.lineComment, run (· != '\n') s)
  | '"' => let (n, closed) := quoted s; (.token (.string false closed), n)
  | '\x60' => let (n, closed) := upTo '\x60' s; (.token (.string true closed), n)
  | '[' => let (n, closed) := upTo ']' s; (.token (.binary closed), n)
  | '{' => (.token .leftBrace, 0)
  | '}' => (.token .rightBrace, 0)
  | ';' => (.token .semicolon, 0)
  | ':' => (.token .colon, 0)
  | '=' => (.token .equals, 0)
  | c =>
    if c == '/' && s.head? == some '/' then (.lineComment, run (· != '\n') s)
    else if c == '/' && s.head? == some '*' then
      let (n, closed) := blockBody (s.drop 1); (.blockComment closed, n + 1)
    else if c == '-' && s.head? == some '-' then (.lineComment, run (· != '\n') s)
    else if c.isDigit || ((c == '-' || c == '.') && digitFollows s) then
      let (kind, n) := numeral c s; (.token kind, n)
    else if isIdentifierStart c then (.token .identifier, run isIdentifierChar s)
    else (.token .unknown, 0)

/-- The pieces of a text, in order. -/
def split : List Char → List Piece
  | [] => []
  | c :: s =>
    let (kind, n) := first c s
    ⟨kind, c :: s.take n⟩ :: split (s.drop n)
termination_by s => s.length

/-- Whether a piece that ends the text is a comment that was not closed: a
comment up to the end of the line that no line feed ends, or an open block. -/
def isOpenComment (p : Piece) : Bool :=
  p.kind == .lineComment || p.kind == .blockComment false

/-- What is wrong with a piece that begins at `start`, if anything. -/
def problem? (start : Nat) (p : Piece) : Option Problem :=
  let whole : Span := ⟨start, start + width p.text⟩
  match p.kind with
  | .token (.string _ false) => some ⟨whole, .unterminatedString⟩
  | .token (.binary false) => some ⟨whole, .unterminatedBinary⟩
  | .token .number =>
    if Numeral.isNumber p.text then none
    else some ⟨whole, .invalidNumber (String.ofList p.text)⟩
  | .token .unknown => p.text.head?.map fun c => ⟨whole, .unexpectedCharacter c⟩
  | .continuation false => some ⟨⟨start, start + 1⟩, .unexpectedCharacter '\\'⟩
  | .blockComment false => some ⟨whole, .unterminatedComment⟩
  | _ => none

/-- Nothing is lost when a text is split. -/
theorem flatten_split (s : List Char) : (split s).flatMap text = s := by
  fun_induction split s with
  | case1 => rfl
  | case2 c s kind n h ih => simp [ih]

/-- No piece is empty. -/
theorem text_ne_nil_of_mem_split {s : List Char} {p : Piece} (h : p ∈ split s) : p.text ≠ [] := by
  fun_induction split s with
  | case1 => simp at h
  | case2 c s kind n h' ih =>
    rcases List.mem_cons.1 h with rfl | h
    · simp
    · exact ih h

end Piece

end PackageRecipe.Sdl
