import PackageRecipe.Schema
import PackageRecipe.Text.Blank

/-!
# Licenses

The license names of package recipes, the check of a license value, and what
may be typed next in an expression such as `MIT or later`.
-/

namespace PackageRecipe.License

open PackageRecipe.Text

/-- The license names. -/
def names : List String :=
  ["public domain", "proprietary", "AFL-3.0", "AGPL-3.0", "Apache-2.0", "APSL-2.0",
   "Artistic-2.0", "BSL-1.0", "BSD 2-clause", "BSD 3-clause", "EPL-1.0", "GPL-2.0", "GPL-3.0",
   "ISC", "LGPL-2.1", "LGPL-3.0", "MIT", "MPL-2.0", "MS-PL", "MS-RL", "NCSA", "OpenSSL",
   "SSLeay", "Zlib"]

/-- What may follow the given beginning of a license expression: a name, then
`or` after a blank, then what `or` joins. -/
def complete (typed : String) : List String :=
  let cs := typed.toList
  let ws := words cs
  if ws.isEmpty || cs.getLast? != some ' ' then names
  else if ws.getLast? == some "or".toList then "later" :: "proprietary" :: names
  else ["or"]

/-- Rejects a value that is blank throughout. -/
def check (v : Sdl.Value) : Option String :=
  if (trim v.text.toList).isEmpty then some "This value must be set" else none

end PackageRecipe.License
