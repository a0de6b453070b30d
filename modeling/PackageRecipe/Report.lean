import PackageRecipe.Schema.Recipe
import PackageRecipe.Validation
import PackageRecipe.Text.Position

/-!
# Reports

The findings of a recipe as lines of text, one for each.
-/

namespace PackageRecipe

open PackageRecipe.Sdl PackageRecipe.Text

/-- What a check of a recipe answers. -/
structure Report where
  lines : List String
  hasErrors : Bool
deriving DecidableEq, Repr

namespace Report

/-- The word for a severity. -/
def severityWord : Severity → String
  | .error => "error"
  | .warning => "warning"

/-- The line for a finding: the path, the line and the column counted from one
where the finding has a place, the severity and the message. -/
def line (path : String) (text : List Char) (f : Finding) : String :=
  let place := match f.span with
    | none => path
    | some s =>
      let p := Position.ofOffset text s.start
      path ++ ":" ++ toString (p.line + 1) ++ ":" ++ toString (p.column + 1)
  place ++ ": " ++ severityWord f.fault.severity ++ ": " ++ f.fault.message

/-- The report on the recipe `text`, which is called `path`. -/
def ofText (path : String) (text : List Char) : Report :=
  let findings := validate Schema.recipe (Document.ofText text)
  { lines := findings.map (line path text)
    hasErrors := findings.any fun f => f.fault.severity = .error }

end Report

end PackageRecipe
