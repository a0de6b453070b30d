import PackageRecipe.Task.Definition
import PackageRecipe.Url

/-!
# Build tasks

A `BuildTask` says in a text where it applies. `BuildTask.bindAll` finds the folder
of the workspace that is meant; tasks outside of the workspace are dropped.
-/

namespace PackageRecipe

/-- A group of tasks in an editor. -/
inductive TaskGroup where
  | clean
  | build
  | rebuild
  | test
deriving DecidableEq, Repr

namespace TaskGroup

/-- The name of a group. -/
def name : TaskGroup → String
  | clean => "clean"
  | build => "build"
  | rebuild => "rebuild"
  | test => "test"

/-- The group with a name. -/
def ofName? (s : String) : Option TaskGroup :=
  [clean, build, rebuild, test].find? (·.name == s)

/-- Reads a group: its name, or an object with the name as its only member, which
is `null`. -/
def ofJson? : Json → Option TaskGroup
  | .string s => ofName? s
  | .object [(s, .null)] => ofName? s
  | _ => none

end TaskGroup

/-- A task that is not bound to a folder yet. -/
structure BuildTask where
  /-- The definition as it is stored, of any form. -/
  definition : Json
  /-- `global`, `workspace`, or the URL of something in the workspace. -/
  scope : String
  /-- The command line, from the program on. -/
  exec : List String := []
  name : String
  isBackground : Bool := false
  source : String
  group : Option TaskGroup := none
  problemMatchers : List String := []

namespace BuildTask

/-- The names of the fields in their order. -/
def fieldNames : List String :=
  ["definition", "scope", "exec", "name", "isBackground", "source", "group", "problemMatchers"]

/-- Reads a task. Its definition, scope, name and source must be given. -/
def ofJson? (j : Json) : Option BuildTask := do
  let r ← j.record? fieldNames
  pure {
    definition := ← r.required "definition" (some ·.canonical)
    scope := ← r.required "scope" Json.string?
    exec := ← r.defaulted "exec" [] Json.strings?
    name := ← r.required "name" Json.string?
    isBackground := ← r.defaulted "isBackground" false Json.bool?
    source := ← r.required "source" Json.string?
    group := ← r.nullable "group" TaskGroup.ofJson?
    problemMatchers := ← r.defaulted "problemMatchers" [] Json.strings? }

/-- Writes a task with all its fields. -/
def toJson (t : BuildTask) : Json :=
  .object [("definition", t.definition), ("scope", .string t.scope), ("exec", .ofStrings t.exec),
    ("name", .string t.name), ("isBackground", .bool t.isBackground),
    ("source", .string t.source), ("group", .ofString? (t.group.map TaskGroup.name)),
    ("problemMatchers", .ofStrings t.problemMatchers)]

end BuildTask

/-- A folder that is open in an editor. -/
structure Folder where
  url : Url
  name : String
deriving DecidableEq, Repr

namespace Folder

/-- The URL of a folder without slashes at its end. -/
def root (f : Folder) : String :=
  String.ofList (f.url.render.toList.reverse.dropWhile (· == '/')).reverse

/-- Whether a text is the root of a folder or continues it with a slash. -/
def contains (f : Folder) (text : String) : Bool :=
  f.root.toList.isPrefixOf text.toList &&
    match text.toList.drop f.root.length with
    | [] => true
    | c :: _ => c == '/'

/-- The folder with the longest root of those that contain a text; the last of
several. -/
def innermost? (text : String) (folders : List Folder) : Option Folder :=
  (folders.filter (·.contains text)).foldl (fun best f =>
    match best with
    | none => some f
    | some b => if b.root.utf8ByteSize ≤ f.root.utf8ByteSize then some f else some b) none

end Folder

/-- Where a bound task applies. -/
inductive TaskScope where
  | everywhere
  | workspace
  | folder (f : Folder)
deriving DecidableEq, Repr

/-- A task that an editor can start. -/
structure BoundTask where
  definition : Json
  scope : TaskScope
  name : String
  source : String
  execution : Execution
  problemMatchers : List String
  isBackground : Bool
  group : Option TaskGroup

namespace BuildTask

/-- The scope that a text means in a workspace. -/
def scope? (folders : List Folder) (text : String) : Option TaskScope :=
  if text = "global" then some .everywhere
  else if text = "workspace" then some .workspace
  else (Folder.innermost? text folders).map .folder

/-- The program to start for a command line. -/
def executionOf (exec : List String) : Execution where
  process := exec.headD ""
  args := exec.tail

/-- A task with its scope in a workspace. -/
def bind? (folders : List Folder) (t : BuildTask) : Option BoundTask :=
  (scope? folders t.scope).map fun scope =>
    { definition := t.definition, scope, name := t.name, source := t.source
      execution := executionOf t.exec, problemMatchers := t.problemMatchers
      isBackground := t.isBackground, group := t.group }

/-- The tasks that apply in a workspace, in order. -/
def bindAll (folders : List Folder) (tasks : List BuildTask) : List BoundTask :=
  tasks.filterMap (bind? folders)

end BuildTask

end PackageRecipe
