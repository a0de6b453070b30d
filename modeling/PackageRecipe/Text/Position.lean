import PackageRecipe.Text.Span

/-!
# Lines and columns

An editor names a place by line and column, both from zero, with columns
counted in characters; this library names it by a byte offset.
`Position.ofOffset` and `Position.toOffset?` convert between the two. The numbers
of an editor have 32 bits, so a `Position` is a `Place` with its numbers cut down
to these.
-/

namespace PackageRecipe.Text

/-- A place in a text: a line and a column on it, both counted from zero. -/
structure Place where
  line : Nat
  column : Nat
deriving DecidableEq, Repr, Inhabited

/-- A place as an editor names it, in numbers of 32 bits. -/
structure Position where
  line : UInt32
  column : UInt32
deriving DecidableEq, Repr, Inhabited

/-- A number of 32 bits stands for itself. -/
instance UInt32.coeNat : CoeOut UInt32 Nat := ⟨UInt32.toNat⟩

/-- Of a number 32 bits are kept. -/
instance Nat.coeUInt32 : Coe Nat UInt32 := ⟨UInt32.ofNat⟩

/-- The name that an editor has for a place. -/
def Place.position (p : Place) : Position :=
  ⟨p.line, p.column⟩

/-- The place that an editor names. -/
def Position.place (p : Position) : Place :=
  ⟨p.line, p.column⟩

/-- A pair of positions. -/
structure Region where
  start : Position
  stop : Position
deriving DecidableEq, Repr

instance : Inhabited Region := ⟨⟨default, default⟩⟩

/-- A character that ends its line whatever follows it: line feed, vertical
tab, form feed, next line, line separator, paragraph separator. -/
def isLineBreak (c : Char) : Bool :=
  c == '\n' || c == '\x0b' || c == '\x0c' || c == '\u0085' || c == '\u2028' || c == '\u2029'

/-- Whether a line ends after `c` when `rest` follows it. A carriage return
ends its line unless a line feed follows, which then ends the line for both. -/
def endsLine (c : Char) (rest : List Char) : Bool :=
  isLineBreak c || (c == '\r' && rest.head? != some '\n')

/-- The place after the character `c`, which stands at `p` before `rest`. -/
def Place.advance (p : Place) (c : Char) (rest : List Char) : Place :=
  if endsLine c rest then ⟨p.line + 1, 0⟩ else ⟨p.line, p.column + 1⟩

/-- The place of a byte offset in a text that begins at `p`. -/
def Place.locate (p : Place) (offset : Nat) : List Char → Place
  | [] => p
  | c :: r => if offset < c.utf8Size then p else (p.advance c r).locate (offset - c.utf8Size) r

/-- The place of a byte offset. An offset inside a character stands for the
start of that character, one past the end for the end. -/
def Place.ofOffset (text : List Char) (offset : Nat) : Place :=
  Place.locate ⟨0, 0⟩ offset text

/-- The position of a byte offset. -/
def Position.ofOffset (text : List Char) (offset : Nat) : Position :=
  (Place.ofOffset text offset).position

/-- The positions of the two ends of a span. -/
def Region.ofSpan (text : List Char) (s : Span) : Region :=
  ⟨Position.ofOffset text s.start, Position.ofOffset text s.stop⟩

/-- The lines of a text, each with its line break. The last one has none, and
is empty when the text is empty or ends in a line break. -/
def lines : List Char → List (List Char)
  | [] => [[]]
  | c :: r =>
    if endsLine c r then [c] :: lines r
    else match lines r with
      | [] => [[c]]
      | l :: ls => (c :: l) :: ls

/-- A line without the line feeds and carriage returns at its end. -/
def clipLine (line : List Char) : List Char :=
  (line.reverse.dropWhile fun c => c == '\n' || c == '\r').reverse

/-- The byte offset of a place, or `none` below the last line. A column past
the end of its line stands for the end of the clipped line. -/
def Place.toOffset? (text : List Char) (p : Place) : Option Nat :=
  match (lines text).drop p.line with
  | [] => none
  | line :: _ =>
    some (width ((lines text).take p.line).flatten + width ((clipLine line).take p.column))

/-- The byte offset of a position. -/
def Position.toOffset? (text : List Char) (p : Position) : Option Nat :=
  p.place.toOffset? text

/-- Nothing is lost when a text is split into lines. -/
theorem flatten_lines (text : List Char) : (lines text).flatten = text := by
  fun_induction lines text with
  | case1 => rfl
  | case2 c r h ih => simp [ih]
  | case3 c r h hl ih => simp_all
  | case4 c r h l ls hl ih => simp_all

/-- Every text has a line. -/
theorem lines_ne_nil (text : List Char) : lines text ≠ [] := by
  fun_cases lines text <;> simp

end PackageRecipe.Text
