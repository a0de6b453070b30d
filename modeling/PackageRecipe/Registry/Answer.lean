import PackageRecipe.Json.Record
import PackageRecipe.Package

/-!
# Answers of a registry

What a registry tells about packages, read from the values that it sends.
-/

namespace PackageRecipe

/-- A package that a search has found. -/
structure FoundPackage where
  name : String
  description : Option String
  version : Option String
deriving DecidableEq, Repr

/-- A package with its releases from the oldest on. -/
structure PackageHistory where
  name : Option String
  releases : List Release
deriving DecidableEq, Repr

/-- Reads a package that a search has found. -/
def FoundPackage.ofJson? (j : Json) : Option FoundPackage := do
  let r ← j.record? ["name", "description", "version"]
  pure ⟨← r.required "name" Json.string?, ← r.nullable "description" Json.string?,
    ← r.nullable "version" Json.string?⟩

/-- Reads a release. -/
def Release.ofJson? (j : Json) : Option Release := do
  let r ← j.record? ["version", "date"]
  pure ⟨← r.required "version" Json.string?, ← r.nullable "date" Json.string?⟩

/-- Reads a package with its releases. -/
def PackageHistory.ofJson? (j : Json) : Option PackageHistory := do
  let r ← j.record? ["name", "versions"]
  pure ⟨← r.nullable "name" Json.string?,
    ← r.defaulted "versions" [] (Json.list? Release.ofJson?)⟩

namespace PackageSummary

/-- The name of a sub-package, if it is described in the recipe of its package. -/
def subPackageName? (j : Json) : Option String := do
  (← j.record? ["name"]).required "name" Json.string?

/-- Reads what the recipe of a package tells: its description, and the names of
its sub-packages. -/
def ofRecipe? (j : Json) : Option (Option String × List String) := do
  let r ← j.record? ["description", "subPackages"]
  let description ← r.nullable "description" Json.string?
  let subPackages ← r.defaulted "subPackages" [] Json.array?
  pure (description, subPackages.filterMap subPackageName?)

/-- Reads what is known about the latest version of a package. -/
def ofJson? (j : Json) : Option PackageSummary := do
  let r ← j.record? ["version", "info"]
  let version ← r.nullable "version" Json.string?
  let recipe ← r.nullable "info" ofRecipe?
  pure ⟨version, recipe.bind (·.1), (recipe.map (·.2)).getD []⟩

end PackageSummary

end PackageRecipe
