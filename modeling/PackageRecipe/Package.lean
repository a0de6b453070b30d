/-!
# Packages

What is known about registered packages. A `PackageIndex` is where it is looked
up; a look-up may fail and may have effects, of the monad `m`.
-/

namespace PackageRecipe

/-- A released version of a package. -/
structure Release where
  version : String
  date : Option String
deriving DecidableEq, Repr

/-- What is known about the latest version of a package. -/
structure PackageSummary where
  version : Option String
  description : Option String
  subPackages : List String
deriving DecidableEq, Repr

/-- Look-ups of packages; each answers `none` when it fails. -/
structure PackageIndex (m : Type → Type) where
  /-- The names of all packages. -/
  names : m (Option (List String))
  /-- The releases of a package from the oldest on. -/
  releases : String → m (Option (List Release))
  /-- The latest version of a package. -/
  latest : String → m (Option PackageSummary)

end PackageRecipe
