import PackageRecipe.Json.Record
import PackageRecipe.Task

/-!
# Tasks in messages

The forms in which folders and bound tasks are exchanged with an editor.
-/

namespace PackageRecipe

namespace Folder

/-- A folder in a message. -/
def toJson (f : Folder) : Json :=
  .object [("uri", .string f.url.render), ("name", .string f.name)]

/-- Reads a folder from a message. -/
def ofJson? (j : Json) : Option Folder := do
  let r ← j.record? ["uri", "name"]
  pure {
    url := ← r.required "uri" fun uri => uri.string?.bind Url.parse?
    name := ← r.required "name" Json.string? }

end Folder

/-- A scope in a message. -/
def TaskScope.toJson : TaskScope → Json
  | everywhere => .string "global"
  | workspace => .string "workspace"
  | folder f => .object [("folder", f.toJson)]

/-- A bound task in a message. -/
def BoundTask.toJson (t : BoundTask) : Json :=
  .object [("definition", t.definition), ("scope", t.scope.toJson), ("name", .string t.name),
    ("source", .string t.source), ("execution", t.execution.toJson),
    ("problemMatchers", .ofStrings t.problemMatchers), ("isBackground", .bool t.isBackground),
    ("group", .ofString? (t.group.map TaskGroup.name))]

end PackageRecipe
