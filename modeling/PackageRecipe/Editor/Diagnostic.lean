import PackageRecipe.Validation
import PackageRecipe.Settings
import PackageRecipe.Text.Position

/-!
# Diagnostics

The findings of a text as an editor shows them, by line and column, and as lines
of a report.
-/

namespace PackageRecipe.Editor

open PackageRecipe.Text PackageRecipe.Sdl

/-- A finding at a place of the text. -/
structure Diagnostic where
  region : Region
  severity : Severity
  message : String
deriving DecidableEq, Repr

/-- The name under which diagnostics are published. -/
def Diagnostic.source : String := "dub-lsp"

/-- A finding of a text. Findings of the whole document stand at its start. -/
def Diagnostic.ofFinding (text : List Char) (f : Finding) : Diagnostic :=
  ⟨(f.span.map (Region.ofSpan text)).getD default, f.fault.severity, f.fault.message⟩

/-- The diagnostics of a text, or `none` when linting is switched off. -/
def diagnostics? (schema : Schema) (settings : Settings) (text : List Char) :
    Option (List Diagnostic) :=
  if settings.linting then
    some ((validate schema (Document.ofText text)).map (Diagnostic.ofFinding text))
  else none

end PackageRecipe.Editor
