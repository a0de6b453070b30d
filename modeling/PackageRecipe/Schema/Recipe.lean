import PackageRecipe.Schema.License

/-!
# The schema of package recipes

The tags of a recipe. The build settings may stand at the root and in
configurations, most of them also in build types; a sub-package holds what the
root holds.
-/

namespace PackageRecipe.Schema

open PackageRecipe.Sdl

/-- The pattern of package names: lower case letters, digits, hyphens and
underscores. -/
def packageName : WrittenPattern where
  source := "^[-a-z0-9_]+$"
  pattern := (Text.Pattern.one fun c => c == '-' || c.isLower || c.isDigit || c == '_').some

/-- A tag that takes one or more strings. -/
def strings (description : String) : Node where
  description := description
  values := some { kind := .string }
  minValues := some 1

/-- A tag that takes exactly one string. -/
def oneString (description : String) : Node where
  description := description
  values := some { kind := .string }
  minValues := some 1
  maxValues := some 1

/-- A tag that takes strings from a list. -/
def oneOf (members : List String) (description : String) (maxValues : Option Nat) : Node where
  description := description
  values := some { kind := .string, members := some members }
  minValues := some 1
  maxValues := maxValues

/-- The kinds of build targets. -/
def targetTypes : List String :=
  ["autodetect", "none", "executable", "library", "sourceLibrary", "staticLibrary",
   "dynamicLibrary"]

/-- The names of build requirements. -/
def buildRequirements : List String :=
  ["allowWarnings", "silenceWarnings", "disallowDeprecations", "silenceDeprecations",
   "disallowInlining", "disallowOptimization", "requireBoundsCheck", "requireContracts",
   "relaxProperties", "noDefaultFlags"]

/-- The names of build options. -/
def buildOptions : List String :=
  ["debugMode", "releaseMode", "coverage", "debugInfo", "debugInfoC", "alwaysStackFrame",
   "stackStomping", "inline", "noBoundsCheck", "optimize", "profile", "profileGC", "unittests",
   "verbose", "ignoreUnknownPragmas", "syntaxOnly", "warnings", "warningsAsErrors",
   "ignoreDeprecations", "deprecationWarnings", "deprecationErrors", "property", "betterC"]

/-- A dependency on another package. -/
def dependency : Node where
  description :=
    "Adds a single dependency of the given name, attributes are used to configure the " ++
    "version/path to use - see next section for how version specifications look like. Use " ++
    "multiple dependency directives to add more than one dependency."
  values := some { kind := .string, source := some .packageName }
  attributes := .ofList [
    ("version",
      { description := "The version specification as used for the simple form"
        values := { kind := .string, source := some .packageVersion } }),
    ("path",
      { description := "Use a folder to source a package from"
        values := { kind := .string } }),
    ("optional",
      { description := "Indicates an optional dependency"
        values := { kind := .boolean } }),
    ("default",
      { description := "Choose an optional dependency by default"
        values := { kind := .boolean } })]
  minValues := some 1
  maxValues := some 1

/-- The settings of a build. -/
def buildSettings : List (String × Node) := [
  ("dependency", dependency),
  ("systemDependencies", oneString
    ("A textual description of the required system dependencies (external C libraries) required " ++
     "by the package. This will be visible on the registry and will be displayed in case of " ++
     "linker errors.")),
  ("targetType", oneOf targetTypes
    "Specifies a specific target type - this setting does not support the platform attribute" (some 1)),
  ("targetName", oneString
    ("Sets the base name of the output file; type and platform specific pre- and suffixes are " ++
     "added automatically - this setting does not support the platform attribute")),
  ("targetPath", oneString
    ("The destination path of the output binary - this setting does not support the platform " ++
     "attribute")),
  ("workingDirectory", oneString
    ("A fixed working directory from which the generated executable will be run - this setting " ++
     "does not support the platform attribute")),
  ("subConfiguration",
    { description :=
      "Locks a dependency (first argument) to a specific configuration (second argument); see " ++
      "also the configurations section - this setting does not support the platform attribute"
      values := some { kind := .string }, minValues := some 2, maxValues := some 2 }),
  ("buildRequirements", oneOf buildRequirements
    ("List of required settings for the build process. See the build requirements section for " ++
     "details.") none),
  ("buildOptions", oneOf buildOptions
    ("List of build option identifiers (corresponding to compiler flags) - see the build options " ++
     "section for details.") none),
  ("libs", strings
    ("A list of external library names - depending on the compiler, these will be converted to " ++
     "the proper linker flag (e.g. \"ssl\" might get translated to \"-L-lssl\")")),
  ("sourceFiles", strings
    ("Additional files passed to the compiler - can be useful to add certain configuration " ++
     "dependent source files that are not contained in the general source folder")),
  ("sourcePaths", strings
    ("Allows to customize the path where to look for source files (any folder \"source\" or " ++
     "\"src\" is automatically used as a source path if no sourcePaths setting is specified) - " ++
     "note that you usually also need to define \"importPaths\" as \"sourcePaths\" don't " ++
     "influence those")),
  ("excludedSourceFiles", strings
    ("Files that should be removed for the set of already added source files (takes precedence " ++
     "over \"sourceFiles\" and \"sourcePaths\") - Glob matching can be used to pattern match " ++
     "multiple files at once")),
  ("mainSourceFile", oneString
    ("Determines the file that contains the main() function. This setting can be used by dub to " ++
     "exclude this file in situations where a different main function is defined (e.g. for \"dub " ++
     "test\") - this setting does not support platform suffixes")),
  ("copyFiles", strings
    ("A list of globs matching files or directories to be copied to targetPath. Matching " ++
     "directories are copied recursively, i.e. \"copyFiles\": [\"path/to/dir\"]\" recursively " ++
     "copies dir, while \"copyFiles\": [\"path/to/dir/*\"]\" only copies files within dir.")),
  ("versions", strings
    "A list of D versions to be defined during compilation"),
  ("debugVersions", strings
    "A list of D debug identifiers to be defined during compilation"),
  ("importPaths", strings
    ("Additional import paths to search for D modules (the source/ folder is used by default as " ++
     "a source folder, if it exists)")),
  ("stringImportPaths", strings
    ("Additional import paths to search for string imports/views (the views/ folder is used by " ++
     "default as a string import folder, if it exists)")),
  ("preGenerateCommands", strings
    "A list of shell commands that is executed before project generation is started"),
  ("postGenerateCommands", strings
    "A list of shell commands that is executed after project generation is finished"),
  ("preBuildCommands", strings
    "A list of shell commands that is executed always before the project is built"),
  ("postBuildCommands", strings
    "A list of shell commands that is executed always after the project is built"),
  ("dflags", strings
    ("Additional flags passed to the D compiler - note that these flags are usually specific to " ++
     "the compiler in use, but a set of flags is automatically translated from DMD to the " ++
     "selected compiler")),
  ("lflags", strings
    ("Additional flags passed to the linker - note that these flags are usually specific to the " ++
     "linker in use"))]

/-- The build settings that a build type cannot override. -/
def notInBuildType : List String :=
  ["dependency", "targetType", "targetName", "targetPath", "workingDirectory",
   "subConfiguration"]

/-- The tags of a configuration. -/
def configurationTags : Keyed Node :=
  .ofList (buildSettings ++ [("platforms",
    { description := "Restricts the configuration to the given platforms"
      values := some { kind := .string } })])

/-- The tags of a build type. -/
def buildTypeTags : Keyed Node :=
  .ofList (buildSettings.filter fun (name, _) => !notInBuildType.contains name)

/-- A tag that names a variant of the build and holds its settings. -/
def variant (tags : Keyed Node) (description : String) : Node where
  description := description
  values := some { kind := .string }
  content := .own tags
  minValues := some 1
  maxValues := some 1
  needsChildren := true

/-- The tags that describe a package. -/
def packageTags : List (String × Node) := [
  ("name",
    { description :=
      "Name of the package, used to uniquely identify the package. Must be comprised of only " ++
      "lower case ASCII alpha-numeric characters, \"-\" or \"_\"."
      values := some { kind := .string, pattern := some packageName }
      minValues := some 1, maxValues := some 1 }),
  ("description", oneString "Brief description of the package"),
  ("homepage", oneString "URL of the project website"),
  ("authors", strings
    ("List of project authors (the suggested format is either \"Peter Parker\" or \"Peter Parker " ++
     "<pparker@example.com>\")")),
  ("copyright", oneString "Copyright declaration string"),
  ("license",
    { description := "License(s) under which the project can be used"
      values := some { kind := .string, check := some License.check, source := some .license }
      minValues := some 1, maxValues := some 1 }),
  ("subPackage",
    { description := "Defines a sub-package using either a path to a sub directory, or in-place"
      values := some { kind := .string }
      content := .root }),
  ("configuration", variant configurationTags
    "Speficies a build configuration (chosen on the command line using --config=...)"),
  ("buildType", variant buildTypeTags
    ("Defines an additional custom build type or overrides one of the default ones (chosen on " ++
     "the command line using --build=...)")),
  ("ddoxFilterArgs",
    { strings
        ("Specifies a list of command line flags usable for controlling filter behavior for " ++
         "--build=ddox [experimental]") with
      space := some "x" })]

/-- The schema of package recipes. -/
def recipe : Schema where
  title := "dub Package Schema"
  root :=
    { description := "dub package recipe"
      content := .own (Keyed.ofList (buildSettings ++ packageTags)) }
  spaces := ["x"]
  required := ["name"]

end PackageRecipe.Schema
