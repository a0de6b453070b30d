import PackageRecipe.Sdl.Document

/-!
# Cursors

What the cursor stands on, from the text before it alone, so that half-typed
statements are understood too.
-/

namespace PackageRecipe.Editor

open PackageRecipe.Sdl PackageRecipe.Text

/-- What is typed at a cursor. -/
inductive CursorKind where
  /-- The name of a tag. -/
  | block
  /-- A value of a tag or of an attribute. -/
  | value
  /-- The name of an attribute. -/
  | attribute
  /-- A comment. -/
  | comment
deriving DecidableEq, Repr

/-- What the cursor stands on. -/
structure Cursor where
  kind : CursorKind
  /-- The tags around the cursor from the root on. For values and attributes the
  last one is the tag that they belong to. -/
  path : List QualifiedName
  /-- The attribute whose value is typed. -/
  attributeName : Option String := none
  /-- What is typed so far. -/
  typed : String := ""
  /-- The positional values of the tag before the cursor. -/
  values : List Value := []
deriving DecidableEq, Repr

namespace Cursor

/-- The number of tokens of a statement that belong to the name of its tag. -/
def headLength : List Token → Nat
  | first :: colon :: second :: _ =>
    if first.isName then
      if colon.kind = .colon then if second.isName then 3 else 2 else 1
    else 0
  | [first, colon] => if first.isName then if colon.kind = .colon then 2 else 1 else 0
  | [first] => if first.isName then 1 else 0
  | [] => 0

/-- The name of the tag of a statement. Without a complete one the tag is
anonymous. -/
def headName (statement : List Token) : QualifiedName :=
  match headLength statement, statement with
  | 3, first :: _ :: second :: _ => ⟨first.word, second.word⟩
  | 1, first :: _ => .plain first.word
  | _, _ => .plain anonymousName

/-- The blocks open around a place and the tokens of its statement so far. -/
structure Context where
  blocks : List QualifiedName
  statement : List Token

/-- The context behind one more token. -/
def Context.add (c : Context) (t : Token) : Context :=
  match t.kind with
  | .newline | .semicolon => { c with statement := [] }
  | .leftBrace => ⟨c.blocks ++ [headName c.statement], []⟩
  | .rightBrace => ⟨c.blocks.dropLast, []⟩
  | _ => { c with statement := c.statement ++ [t] }

/-- The context behind a sequence of tokens. -/
def Context.ofTokens (ts : List Token) : Context :=
  ts.foldl Context.add ⟨[], []⟩

/-- The values of the tokens that do not follow an equals sign; `previous` is
the token in front of them. -/
def valuesAfter (previous : Option Token) : List Token → List Value
  | [] => []
  | t :: ts =>
    (if previous.any (·.kind = .equals) then [] else t.value?.toList) ++ valuesAfter (some t) ts

/-- The positional values of a statement. -/
def positionalValues (statement : List Token) : List Value :=
  let n := headLength statement
  valuesAfter (statement.take n).getLast? (statement.drop n)

/-- The attribute whose equals sign follows the tokens, which are given from the
last to the first. -/
def attributeBefore? : List Token → Option String
  | name :: colon :: space :: _ =>
    if name.kind ≠ .identifier then none
    else if colon.kind = .colon ∧ space.kind = .identifier then
      some (space.word ++ ":" ++ name.word)
    else some name.word
  | name :: _ => if name.kind = .identifier then some name.word else none
  | [] => none

/-- The text of a token as far as it is typed: strings decoded. -/
def typedText (t : Token) : String :=
  match t.kind with
  | .string _ _ => (t.literal?.map (·.2)).getD ""
  | _ => t.word

/-- Whether a token is a string that is not closed. -/
def isOpenString (t : Token) : Bool :=
  match t.kind with
  | .string _ false => true
  | _ => false

/-- The text of tokens that follow each other, with what is between them. -/
def spelling : List Token → List Char
  | [] => []
  | t :: ts => t.text ++ ts.flatMap fun t => t.gap ++ t.text

/-- What the cursor at `stop` stands on in the given context. `tail` is the text
between the last token and the cursor. -/
def ofContext (stop : Nat) (tail : List Char) (c : Context) : Cursor :=
  let statement := c.statement
  let n := headLength statement
  match statement.reverse with
  | [] => { kind := .block, path := c.blocks }
  | last :: before =>
    let touching := last.stop = stop
    if n = statement.length ∧ (touching ∨ last.kind = .colon) then
      { kind := .block, path := c.blocks,
        typed := String.ofList (spelling statement ++ tail) }
    else
      let path := c.blocks ++ [headName statement]
      let values := positionalValues statement
      if last.kind = .equals then
        { kind := .value, path := path, attributeName := attributeBefore? before, values := values }
      else if before.head?.any (·.kind = .equals) ∧ (isOpenString last ∨ touching) then
        { kind := .value, path := path, attributeName := attributeBefore? before.tail,
          typed := typedText last, values := values }
      else if isOpenString last then
        { kind := .value, path := path, typed := typedText last,
          values := values.filter (·.span ≠ last.span) }
      else
        { kind := .attribute, path := path, values := values,
          typed := if last.kind = .identifier ∧ touching then last.word else "" }

/-- What the cursor at a byte offset of a text stands on. An offset inside a
character stands for its start, one past the end for the end. -/
def ofOffset (text : List Char) (offset : Nat) : Cursor :=
  let before := takeBytes offset text
  let lexing := Lexing.ofText before
  let context := Context.ofTokens lexing.tokens
  let stop := width before
  if lexing.endsInComment then { kind := .comment, path := context.blocks }
  else
    let lastStop := (lexing.tokens.getLast?.map Token.stop).getD 0
    ofContext stop (dropBytes lastStop before) context

end Cursor

end PackageRecipe.Editor
