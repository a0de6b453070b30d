import PackageRecipe.Text.Span

/-!
# Values

The literal values of SDL: seven kinds, each value with its decoded text and
the span that it was read from.
-/

namespace PackageRecipe.Sdl

open PackageRecipe.Text

/-- The kinds of literal values. -/
inductive ValueKind where
  | string
  | number
  | boolean
  | null
  | date
  | duration
  | binary
deriving DecidableEq, Repr, Inhabited

/-- The name of a kind in messages. -/
def ValueKind.name : ValueKind → String
  | .string => "string"
  | .number => "number"
  | .boolean => "boolean"
  | .null => "null"
  | .date => "date"
  | .duration => "duration"
  | .binary => "binary"

/-- A literal value. Its text is decoded: strings without quotes and escapes,
binaries without brackets, `on` and `off` as `true` and `false`. -/
structure Value where
  kind : ValueKind
  text : String
  span : Span
deriving DecidableEq, Repr

end PackageRecipe.Sdl
