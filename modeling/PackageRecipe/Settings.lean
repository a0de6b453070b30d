/-!
# Settings

What a user can set.
-/

namespace PackageRecipe

/-- The settings. -/
structure Settings where
  /-- The program that runs build tasks. -/
  toolPath : String := "dub"
  /-- Whether problems of recipes are published. -/
  linting : Bool := true
  /-- The milliseconds between the last edit and the next check. -/
  lintDelay : Nat := 50
  registryUrl : String := "https://code.dlang.org"
  /-- The seconds until a request is given up. -/
  registryTimeout : Nat := 10
  /-- The seconds for which the list of packages is kept. -/
  packageListTtl : Nat := 3600
  /-- The number of package names that are offered at most. -/
  maxPackages : Nat := 100
  /-- Whether hovering shows descriptions. -/
  hover : Bool := true
deriving DecidableEq, Repr

end PackageRecipe
