import PackageRecipe.Decimal.Shortest
import PackageRecipe.FileTree
import PackageRecipe.Json.Reader
import PackageRecipe.Settings
import PackageRecipe.Toml

/-!
# Reading settings

Settings come from variables of the environment, from a file in a folder, and from
a file of the user; what comes first in this list counts. The values are of any
scalar kind and are converted where this makes sense.
-/

namespace PackageRecipe.Settings

/-- Where settings are looked for. -/
structure Sources where
  files : FileTree
  /-- The folder of the user. -/
  home : String
  /-- The variables of the environment with their values. -/
  environment : List (String × String)

/-- Why settings cannot be read. -/
inductive Error where
  /-- A file is not of its format, or the path of the folder is no text. -/
  | unreadable
  /-- A value does not fit. -/
  | unfitting
deriving DecidableEq, Repr

/-- The names of the settings. -/
def names : List String :=
  ["dub_path", "enable_sdl_linting", "lint_delay_ms", "registry_url", "registry_timeout_secs",
    "package_list_ttl_secs", "max_package_completions", "hover"]

/-! ## Layers -/

/-- Names with the values that one source gives them. -/
abbrev Layer := List (String × Json)

/-- The formats of files by the ends of their names. -/
def formats : List (String × (String → Option Json)) :=
  [(".toml", Toml.read?), (".json", Json.read?)]

/-- A text without a byte order mark in front. -/
def dropMark (text : String) : String :=
  match text.toList with
  | '\ufeff' :: r => String.ofList r
  | _ => text

/-- The values in a file that is named without the end of its name. A file of the
very name stands in front of the others, but has no format. -/
def fileLayer? (files : FileTree) (path : String) : Option Layer :=
  if (files.read? path).isSome then some []
  else
    match formats.findSome? fun (suffix, read) => (files.read? (path ++ suffix)).map (·, read) with
    | none => some []
    | some (text, read) => (read (dropMark text)).bind Json.object?

/-- What the names of variables start with. -/
def variablePrefix : String := "dub_lsp_"

/-- A name in lower case letters of ASCII. -/
def lowerName (name : String) : List Char :=
  name.toList.map Char.toLower

/-- The values in variables of the environment, whose names are compared without
regard to case. -/
def variableLayer (environment : List (String × String)) : Layer :=
  environment.filterMap fun (name, value) =>
    let key := lowerName name
    if variablePrefix.toList.isPrefixOf key then
      some (String.ofList (key.drop variablePrefix.length), .string value)
    else none

/-- The path of the file of the user, without the end of its name. -/
def homePath (home : String) : String :=
  home ++ "/.config/dub-lsp/settings"

/-- The path of the file in a folder, without the end of its name. -/
def folderPath (folder : String) : String :=
  folder ++ "/.dub-lsp"

/-- The layers of a folder, of which a later one counts before an earlier one. -/
def layers? (sources : Sources) (folder : String) : Option (List Layer) := do
  pure [← fileLayer? sources.files (homePath sources.home),
    ← fileLayer? sources.files (folderPath folder), variableLayer sources.environment]

/-- Sets a name to a value. A table without entries changes nothing. -/
def override (m : Keyed Json) (name : String) (j : Json) : Keyed Json :=
  match j with
  | .object [] => m
  | _ => m.insert name j

/-- The values of all layers together. -/
def merge (layers : List Layer) : Keyed Json :=
  layers.flatten.foldl (fun m (name, j) => override m name j) []

/-! ## Conversions -/

/-- The words for a truth value. -/
def words (b : Bool) : List String :=
  if b then ["true", "on", "yes"] else ["false", "off", "no"]

/-- The text of a number. -/
def numberText : Json.Number → String
  | .integer n => toString n
  | .float x =>
    let bits := x.toBits.toNat
    let negative := bits / Decimal.signBit = 1
    let bits := bits % Decimal.signBit
    if x.isNaN then "NaN"
    else
      let text :=
        if x.isInf then "inf"
        else if bits = 0 then "0"
        else
          let (n, e) := Decimal.shortest bits
          Decimal.positional n e
      if negative then "-" ++ text else text

/-- A text, or what a truth value or a number is written as. -/
def text? : Json → Option String
  | .string s => some s
  | .bool b => some (if b then "true" else "false")
  | .number n => some (numberText n)
  | _ => none

/-- A truth value, a number that is zero or not, or one of the words for either. -/
def truth? : Json → Option Bool
  | .bool b => some b
  | .number (.integer n) => some (n != 0)
  | .number (.float x) => some (x != 0)
  | .string s =>
    let word := String.ofList (lowerName s)
    if word == "1" || (words true).contains word then some true
    else if word == "0" || (words false).contains word then some false
    else none
  | _ => none

/-- The largest count. -/
def maxCount : Nat := 0xFFFFFFFFFFFFFFFF

/-- The count that decimal digits write. -/
def digitsCount? (s : String) : Option Nat :=
  let digits := match s.toList with
    | '+' :: r => r
    | r => r
  if digits.isEmpty || !digits.all Char.isDigit then none
  else
    let n := digits.foldl (fun n c => 10 * n + (c.toNat - '0'.toNat)) 0
    if n ≤ maxCount then some n else none

/-- A count: a number, of which a fraction is rounded, a truth value as one or
zero, or a text that writes either. -/
def count? : Json → Option Nat
  | .bool b => some b.toNat
  | .number (.integer n) => if 0 ≤ n ∧ n ≤ maxCount then some n.toNat else none
  | .number (.float x) => some x.round.toUInt64.toNat
  | .string s =>
    let word := String.ofList (lowerName s)
    if (words true).contains word then some 1
    else if (words false).contains word then some 0
    else digitsCount? s
  | _ => none

/-- The value of a name, or a default if it has none. -/
def field? {α : Type} (m : Keyed Json) (name : String) (convert : Json → Option α) (default : α) :
    Option α :=
  match m.get? name with
  | none => some default
  | some j => convert j

/-- The settings that values give. -/
def ofValues? (m : Keyed Json) : Option Settings := do
  let d : Settings := {}
  pure {
    toolPath := ← field? m "dub_path" text? d.toolPath
    linting := ← field? m "enable_sdl_linting" truth? d.linting
    lintDelay := ← field? m "lint_delay_ms" count? d.lintDelay
    registryUrl := ← field? m "registry_url" text? d.registryUrl
    registryTimeout := ← field? m "registry_timeout_secs" count? d.registryTimeout
    packageListTtl := ← field? m "package_list_ttl_secs" count? d.packageListTtl
    maxPackages := ← field? m "max_package_completions" count? d.maxPackages
    hover := ← field? m "hover" truth? d.hover }

/-- The settings for a folder. -/
def read (sources : Sources) (folder : RawText) : Except Error Settings :=
  match folder.text?.bind (layers? sources) with
  | none => .error .unreadable
  | some layers =>
    match ofValues? (merge layers) with
    | none => .error .unfitting
    | some settings => .ok settings

end PackageRecipe.Settings
