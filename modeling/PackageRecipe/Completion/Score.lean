import PackageRecipe.Text.Blank
import PackageRecipe.Text.Case
import PackageRecipe.Text.Latin
import PackageRecipe.Text.Letter

/-!
# Match scores

How well a needle matches a name. Each matched character counts; matches at the
start of a word or of a part of a name count more, gaps count less. `fuzzy?`
looks for the best way to find the needle's characters in order, the other
matchers want them in a row.
-/

namespace PackageRecipe.Completion

open PackageRecipe.Text

/-- The classes of characters that mark word boundaries. -/
inductive CharClass where
  | blank
  | other
  | delimiter
  | lower
  | upper
  | letter
  | number
deriving DecidableEq, Repr

namespace CharClass

/-- The class of a character. -/
def of (c : Char) : CharClass :=
  if c.toNat < 0x80 then
    if c.isLower then .lower
    else if c.isUpper then .upper
    else if c.isDigit then .number
    else if isBlank c && c != '\x0b' then .blank
    else if c == '/' || c == ',' || c == ':' || c == ';' || c == '|' then .delimiter
    else .other
  else if isLowercase c then .lower
  else if isUppercase c then .upper
  else if isNumber c then .number
  else if isLetter c then .letter
  else if isBlank c then .blank
  else .other

/-- A class of characters that form words. -/
def isWord : CharClass → Bool
  | .lower | .upper | .letter | .number => true
  | _ => false

end CharClass

/-! ### Weights -/

/-- The score of a matched character. -/
def matchScore : Nat := 16

/-- What the first character of a gap costs. -/
def gapStart : Nat := 3

/-- What each further character of a gap costs. -/
def gapExtension : Nat := 1

/-- The bonus at the start of a word. -/
def boundaryBonus : Nat := 8

/-- The bonus at the start of a word behind a blank or at the start of a name. -/
def blankBonus : Nat := boundaryBonus + 2

/-- The bonus at the start of a word behind a delimiter. -/
def delimiterBonus : Nat := boundaryBonus + 1

/-- The bonus where a part of a word begins: a capital behind a small letter or
the first digit of a number. -/
def innerBonus : Nat := boundaryBonus - gapStart

/-- The least bonus of a character that is matched right behind another. -/
def rowBonus : Nat := gapStart + gapExtension

/-- The bonus counts this many times for the first character of a needle. -/
def firstFactor : Nat := 2

/-- The bonus of a character of class `c` behind one of class `previous`. -/
def bonus (previous c : CharClass) : Nat :=
  if c.isWord && previous = .blank then blankBonus
  else if c.isWord && previous = .delimiter then delimiterBonus
  else if c.isWord && previous = .other then boundaryBonus
  else if previous = .lower && c = .upper then innerBonus
  else if previous ≠ .number && c = .number then innerBonus
  else if c = .blank then blankBonus
  else if c = .other then boundaryBonus
  else 0

/-! ### Names -/

/-- How characters are compared. -/
structure Folding where
  /-- Capitals match small letters. -/
  ignoreCase : Bool
  /-- Letters with diacritics match their base letters. -/
  ignoreMarks : Bool

/-- The character that is compared in place of `c`. -/
def Folding.apply (f : Folding) (c : Char) : Char :=
  if c.toNat < 0x80 then if f.ignoreCase then c.toLower else c
  else
    let c := if f.ignoreMarks then baseLetter c else c
    if f.ignoreCase then foldCase c else c

/-- A character of a name as it is matched. -/
structure Glyph where
  char : Char
  bonus : Nat

/-- The glyphs of a name behind a character of class `previous`. -/
def glyphs (f : Folding) (previous : CharClass) : List Char → List Glyph
  | [] => []
  | c :: r => ⟨f.apply c, bonus previous (.of c)⟩ :: glyphs f (.of c) r

/-! ### Rows of matches -/

/-- The score of a run of glyphs that spell the needle, behind glyphs with
`score` so far. The best bonus at the start of a word carries on. -/
def rowScore (score carried : Nat) : List Glyph → Nat
  | [] => score
  | g :: r =>
    let carried := if boundaryBonus ≤ g.bonus ∧ carried < g.bonus then g.bonus else carried
    rowScore (score + matchScore + max (max g.bonus carried) rowBonus) carried r

/-- The score of a needle that stands in a row at the given glyphs. -/
def spelledScore : List Glyph → Nat
  | [] => 0
  | g :: r => rowScore (matchScore + g.bonus * firstFactor) g.bonus r

/-- The score of the needle if it is spelled by exactly the given glyphs. -/
def spelled? (needle : List Char) (name : List Glyph) : Option Nat :=
  if name.map Glyph.char = needle then some (spelledScore name) else none

/-! ### Matches with gaps -/

/-- A match of the last of some characters of the needle at a glyph. -/
structure Cell where
  score : Nat
  /-- The bonus that a match right behind this one gets at least. -/
  carried : Nat

/-- The match at a glyph with the given bonus, where `cell` is the match of the
character before at the glyph before, if any, and `apart` the best score of a
match further back less the cost of the gap. -/
def Cell.next (cell : Option Cell) (apart bonus : Nat) : Cell :=
  match cell with
  | none => ⟨apart + bonus + matchScore, bonus⟩
  | some cell =>
    let carried := max cell.carried rowBonus
    let carried := if boundaryBonus ≤ bonus ∧ carried < bonus then bonus else carried
    let joined := cell.score + max carried bonus
    if apart + bonus < joined then ⟨joined + matchScore, carried⟩
    else ⟨apart + bonus + matchScore, bonus⟩

/-- The matches of the first character of a needle. -/
def firstRow (c : Char) (name : List Glyph) : List (Option Cell) :=
  name.map fun g =>
    if g.char = c then some ⟨g.bonus * firstFactor + matchScore, g.bonus⟩ else none

/-- The matches of the next character `c`, from the matches of the character
before it. `cell` is the one at the glyph before, `apart` the best score of those
further back less the cost of the gap, and `begun` tells whether there was one. -/
def nextRow (c : Char) (apart : Nat) (cell : Option Cell) (begun : Bool) :
    List (Glyph × Option Cell) → List (Option Cell)
  | [] => []
  | (g, above) :: r =>
    (if begun && g.char = c then some (Cell.next cell apart g.bonus) else none) ::
      nextRow c (max ((cell.map Cell.score).getD 0 - gapStart) (apart - gapExtension)) above
        (begun || above.isSome) r

/-- The matches of the last character of a needle, from those of the character
before its rest. -/
def lastRow (name : List Glyph) : List Char → List (Option Cell) → List (Option Cell)
  | [], row => row
  | c :: r, row => lastRow name r (nextRow c 0 none false (name.zip row))

/-- The best score of a row, if it has a match. -/
def best? (row : List (Option Cell)) : Option Nat :=
  (row.filterMap id).foldl (fun b cell => some (max (b.getD 0) cell.score)) none

/-- The glyphs from the first that can begin the needle to the last that can end
it. -/
def window (first last : Char) (name : List Glyph) : List Glyph :=
  ((name.dropWhile (·.char ≠ first)).reverse.dropWhile (·.char ≠ last)).reverse

/-- The most cells that are computed to find the best match. -/
def maxCells : Nat := 102400

/-- The score of a needle that stands in order, with gaps, at the given glyphs;
`inGap` tells whether the glyph before was skipped. -/
def gapScore (score carried : Nat) (inGap : Bool) : List Char → List Glyph → Nat
  | [], _ => score
  | _, [] => score
  | c :: needle, g :: r =>
    if g.char = c then
      if inGap then gapScore (score + matchScore + g.bonus) g.bonus false needle r
      else
        let carried := if boundaryBonus ≤ g.bonus ∧ carried < g.bonus then g.bonus else carried
        gapScore (score + matchScore + max (max g.bonus carried) rowBonus) carried false needle r
    else
      gapScore (score - (if inGap then gapExtension else gapStart)) carried true (c :: needle) r

/-- What is left behind the first match of the needle in order. -/
def behind? : List Char → List Glyph → Option (List Glyph)
  | [], r => some r
  | _, [] => none
  | c :: needle, g :: r => if g.char = c then behind? needle r else behind? (c :: needle) r

/-- The score of the first match of the needle in order, narrowed from behind:
the plain answer where looking for the best one would cost too much. -/
def greedy? (needle : List Char) (name : List Glyph) : Option Nat := do
  let rest ← behind? needle name
  let reached := name.take (name.length - rest.length)
  let before ← behind? needle.reverse reached.reverse
  match needle, reached.drop before.length with
  | _ :: needle, g :: r =>
    some (gapScore (matchScore + g.bonus * firstFactor) g.bonus false needle r)
  | _, _ => none

/-- The best score of a needle whose characters stand in the name in order. -/
def fuzzy? (needle : List Char) (name : List Glyph) : Option Nat :=
  match needle with
  | [] => some 0
  | [c] => best? (firstRow c name)
  | first :: rest =>
    if name.length < needle.length then none
    else if name.length = needle.length then spelled? needle name
    else
      let part := window first (rest.getLastD first) name
      if part.length = needle.length then spelled? needle part
      else if maxCells < part.length * needle.length then greedy? needle part
      else best? (lastRow part rest (firstRow first part))

/-! ### Matches in a row -/

/-- The places where a needle stands in a row, each from there on. -/
def occurrences (needle : List Char) : List Glyph → List (List Glyph)
  | [] => []
  | g :: r =>
    if needle.isPrefixOf ((g :: r).map Glyph.char) then (g :: r) :: occurrences needle r
    else occurrences needle r

/-- The first of the places whose first glyph has the highest bonus. -/
def bestPlace? (places : List (List Glyph)) : Option (List Glyph) :=
  places.foldl (fun b p =>
    match b with
    | none => some p
    | some q =>
      if (q.head?.map Glyph.bonus).getD 0 < (p.head?.map Glyph.bonus).getD 0 then some p
      else some q) none

/-- The score of a needle that stands somewhere in the name. -/
def substring? (needle : List Char) (name : List Glyph) : Option Nat :=
  if needle.isEmpty then some 0
  else (bestPlace? (occurrences needle name)).map fun p => spelledScore (p.take needle.length)

/-- Whether a list of characters begins with a blank. -/
def startsBlank (cs : List Char) : Bool :=
  cs.head?.any isBlank

/-- The glyphs without the blanks at their start, unless the needle has one
there. -/
def skipBlanks (needle : List Char) (name : List Glyph) : List Glyph :=
  if startsBlank needle then name else name.dropWhile (isBlank ·.char)

/-- The glyphs without the blanks at their end, unless the needle has one
there. -/
def clipBlanks (needle : List Char) (name : List Glyph) : List Glyph :=
  (skipBlanks needle.reverse name.reverse).reverse

/-- The score of a needle that the name begins with. -/
def start? (needle : List Char) (name : List Glyph) : Option Nat :=
  spelled? needle ((skipBlanks needle name).take needle.length)

/-- The score of a needle that the name ends with. -/
def end? (needle : List Char) (name : List Glyph) : Option Nat :=
  let name := clipBlanks needle name
  if name.length < needle.length then none
  else spelled? needle (name.drop (name.length - needle.length))

/-- The score of a needle that is the whole name. -/
def whole? (needle : List Char) (name : List Glyph) : Option Nat :=
  spelled? needle (clipBlanks needle (skipBlanks needle name))

end PackageRecipe.Completion
