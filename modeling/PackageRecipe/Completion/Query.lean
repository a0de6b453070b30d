import PackageRecipe.Completion.Score
import PackageRecipe.Text.Mark

/-!
# Queries

What is typed to find a name: parts set apart by blanks, all of which a name
must match. A part may ask for the start of a name (`^a`), for its end (`a$`),
for a row of characters (`'a`) or for a name without it (`!a`).
-/

namespace PackageRecipe.Completion

open PackageRecipe.Text

/-- Where the characters of a part must stand in a name. -/
inductive MatchKind where
  /-- In order, with gaps. -/
  | fuzzy
  /-- In a row. -/
  | substring
  | start
  | end
  | whole
deriving DecidableEq, Repr

/-- A part of a query. -/
structure QueryPart where
  kind : MatchKind
  needle : List Char
  /-- The part must not match. -/
  negative : Bool
  folding : Folding

/-- A query: every part counts. -/
abbrev Query := List QueryPart

namespace QueryPart

/-- Cuts a query at its blanks, but for those behind a backslash. -/
def cut (escaped : Bool) : List Char → List (List Char)
  | [] => [[]]
  | c :: r =>
    if c = ' ' ∧ !escaped then [] :: cut false r
    else match cut (c == '\\') r with
      | [] => [[c]]
      | w :: ws => (c :: w) :: ws

/-- Replaces each backslash with a blank behind it by the blank. -/
def unescapeBlanks : List Char → List Char
  | '\\' :: ' ' :: r => ' ' :: unescapeBlanks r
  | c :: r => c :: unescapeBlanks r
  | [] => []

/-- Takes the sign of a negative part off, or the backslash before it. -/
def takeNegative : List Char → Bool × List Char
  | '!' :: r => (true, r)
  | '\\' :: '!' :: r => (false, '!' :: r)
  | r => (false, r)

/-- Takes the sign of the kind of a part off, or the backslash before it. -/
def takeKind : List Char → MatchKind × List Char
  | '^' :: r => (.start, r)
  | '\'' :: r => (.substring, r)
  | '\\' :: '^' :: r => (.fuzzy, '^' :: r)
  | '\\' :: '\'' :: r => (.fuzzy, '\'' :: r)
  | r => (.fuzzy, r)

/-- Takes the sign of the end of a name off, and tells whether the part ends in
a dollar sign of its own. -/
def takeEnd (kind : MatchKind) (cs : List Char) : MatchKind × List Char × Bool :=
  match cs.reverse with
  | '$' :: '\\' :: r => (kind, r.reverse, true)
  | '$' :: r => (if kind = .fuzzy then .end else .whole, r.reverse, false)
  | _ => (kind, cs, false)

/-- A part that ignores case unless it has a capital, and diacritics unless it
has one. -/
def make (kind : MatchKind) (negative : Bool) (needle : List Char) (dollar : Bool) : QueryPart :=
  let needle := leads (unescapeBlanks needle)
  { kind := kind
    negative := negative
    folding :=
      { ignoreCase := !needle.any isUppercase
        ignoreMarks := needle.all fun c => baseLetter c == c }
    needle := if dollar then needle ++ ['$'] else needle }

/-- Reads a part. A negative part stands in a row. -/
def ofText (cs : List Char) : QueryPart :=
  let (negative, cs) := takeNegative cs
  let (kind, cs) := takeKind cs
  let (kind, cs, dollar) := takeEnd kind cs
  make (if negative ∧ kind = .fuzzy then .substring else kind) negative cs dollar

/-- The score of a part on a name. -/
def score? (p : QueryPart) (name : List Char) : Option Nat :=
  let name := glyphs p.folding .blank name
  let found := match p.kind with
    | .fuzzy => fuzzy? p.needle name
    | .substring => substring? p.needle name
    | .start => start? p.needle name
    | .end => end? p.needle name
    | .whole => whole? p.needle name
  if p.negative then if found.isSome then none else some 0 else found

end QueryPart

/-- Reads a query. Parts without characters of their own do not count. -/
def Query.ofText (cs : List Char) : Query :=
  ((QueryPart.cut false cs).map QueryPart.ofText).filter fun p => !p.needle.isEmpty

/-- The score of a name: the sum over all parts, or zero if one does not match. -/
def Query.score (q : Query) (name : String) : Nat :=
  let cs := leads name.toList
  ((q.mapM fun (p : QueryPart) => p.score? cs).map (·.foldl (· + ·) 0)).getD 0

end PackageRecipe.Completion
