import PackageRecipe.Sdl.Piece
import PackageRecipe.Sdl.Escape
import PackageRecipe.Sdl.Value

/-!
# Tokens

A token knows its text, its place and the gap before it: the blanks, comments
and line continuations that separate it from the token before. `Lexing.ofText`
reads a text into tokens and the problems found on the way; it never fails.
-/

namespace PackageRecipe.Sdl

open PackageRecipe.Text

/-- A token of a text. -/
structure Token where
  kind : TokenKind
  text : List Char
  /-- The text between the token before and this one. -/
  gap : List Char
  /-- The byte offset of the first character. -/
  start : Nat
deriving DecidableEq, Repr

namespace Token

/-- The byte offset behind the last character. -/
def stop (t : Token) : Nat := t.start + width t.text

/-- The place of a token. -/
def span (t : Token) : Span := ⟨t.start, t.stop⟩

/-- The text of a token as a string. -/
def word (t : Token) : String := String.ofList t.text

/-- The tokens that end the values and attributes of a statement. -/
def endsStatement (t : Token) : Bool :=
  match t.kind with
  | .newline | .semicolon | .leftBrace | .rightBrace => true
  | _ => false

/-- The text of a delimited token without its delimiters. -/
def body (terminated : Bool) (text : List Char) : List Char :=
  if terminated then text.tail.dropLast else text.tail

/-- The value that an identifier denotes if it is a keyword. -/
def keyword? (name : String) : Option (ValueKind × String) :=
  match name with
  | "true" => some (.boolean, "true")
  | "on" => some (.boolean, "true")
  | "false" => some (.boolean, "false")
  | "off" => some (.boolean, "false")
  | "null" => some (.null, "null")
  | _ => none

/-- The kind and the decoded text of a literal token. -/
def literal? (t : Token) : Option (ValueKind × String) :=
  match t.kind with
  | .string true terminated => some (.string, String.ofList (body terminated t.text))
  | .string false terminated =>
    some (.string, String.ofList (Escape.decode (body terminated t.text)))
  | .number => some (.number, t.word)
  | .date => some (.date, t.word)
  | .duration => some (.duration, t.word)
  | .binary terminated => some (.binary, String.ofList (trim (body terminated t.text)))
  | .identifier => keyword? t.word
  | _ => none

/-- The value of a literal token. -/
def value? (t : Token) : Option Value :=
  t.literal?.map fun (kind, text) => ⟨kind, text, t.span⟩

/-- An identifier that is no keyword. -/
def isName (t : Token) : Bool :=
  t.kind == .identifier && (keyword? t.word).isNone

/-- The tokens among the pieces of a text, where the first piece begins at
`start` and `gap` is the text since the last token. -/
def ofPieces (start : Nat) (gap : List Char) : List Piece → List Token
  | [] => []
  | p :: ps =>
    match p.kind with
    | .token kind => ⟨kind, p.text, gap, start⟩ :: ofPieces (start + width p.text) [] ps
    | _ => ofPieces (start + width p.text) (gap ++ p.text) ps

end Token

/-- The problems of the pieces of a text, where the first begins at `start`. -/
def Piece.problems (start : Nat) : List Piece → List Problem
  | [] => []
  | p :: ps => (p.problem? start).toList ++ Piece.problems (start + width p.text) ps

/-- The tokens of a text and what was found wrong with it. -/
structure Lexing where
  tokens : List Token
  problems : List Problem
  /-- The text ends inside a comment. -/
  endsInComment : Bool

/-- Reads a text into tokens. -/
def Lexing.ofText (text : List Char) : Lexing :=
  let pieces := Piece.split text
  { tokens := Token.ofPieces 0 [] pieces
    problems := Piece.problems 0 pieces
    endsInComment := pieces.getLast?.any Piece.isOpenComment }

end PackageRecipe.Sdl
