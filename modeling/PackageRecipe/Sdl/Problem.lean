import PackageRecipe.Text.Span

/-!
# Problems of a document

What can be wrong with the text of a document, as causes. `Cause.message` holds
the wording and `Cause.severity` the weight of each.
-/

namespace PackageRecipe.Sdl

open PackageRecipe.Text

/-- How much a problem weighs. -/
inductive Severity where
  | error
  | warning
deriving DecidableEq, Repr

/-- What is wrong with a part of a document. -/
inductive Cause where
  /-- A character that begins no token. -/
  | unexpectedCharacter (c : Char)
  | unterminatedComment
  | unterminatedString
  | unterminatedBinary
  /-- A number-like token that is no number. -/
  | invalidNumber (text : String)
  /-- A block that is still open at the end of the text. -/
  | missingClosingBrace
  /-- A closing brace that closes no block. -/
  | strayClosingBrace
  /-- A statement that begins with neither a name nor a value. -/
  | expectedTagName
  /-- A positional value after an attribute. -/
  | valueAfterAttribute
  | unexpectedIdentifier (name : String)
  | unexpectedToken (text : String)
  /-- A block below the deepest level that is kept. -/
  | nestingTooDeep
  /-- An attribute name and an equals sign that no value follows. -/
  | attributeWithoutValue (name : String)
deriving DecidableEq, Repr

/-- The wording of a cause. -/
def Cause.message : Cause → String
  | .unexpectedCharacter c => "Unexpected character '" ++ c.toString ++ "'"
  | .unterminatedComment => "Unterminated block comment"
  | .unterminatedString => "Unterminated string"
  | .unterminatedBinary => "Unterminated binary literal"
  | .invalidNumber text => "Invalid number literal '" ++ text ++ "'"
  | .missingClosingBrace => "Missing closing '\x7d'"
  | .strayClosingBrace => "Unexpected '\x7d'"
  | .expectedTagName => "Expected a tag name"
  | .valueAfterAttribute => "Values should come before attributes"
  | .unexpectedIdentifier name => "Unexpected identifier '" ++ name ++ "'"
  | .unexpectedToken text => "Unexpected '" ++ text ++ "'"
  | .nestingTooDeep => "Nesting too deep"
  | .attributeWithoutValue name => "Expected a value for attribute '" ++ name ++ "'"

/-- Misplaced values are accepted with a warning; all else is an error. -/
def Cause.severity : Cause → Severity
  | .valueAfterAttribute => .warning
  | _ => .error

/-- A cause and the place where it was found. -/
structure Problem where
  span : Span
  cause : Cause
deriving DecidableEq, Repr

/-- Problems in the order of their places; those at one place keep their order. -/
def Problem.sort (ps : List Problem) : List Problem :=
  ps.mergeSort fun p q => p.span.start ≤ q.span.start

end PackageRecipe.Sdl
