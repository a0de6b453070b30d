import PackageRecipe.FileTree
import PackageRecipe.Json.Writer
import PackageRecipe.Task

/-!
# Discovery of tasks

A package is a folder that directly holds a recipe. Those of a workspace are its
folders and the folders in them that are not hidden; each gives a task to build,
to rebuild, to test and to run it.
-/

namespace PackageRecipe.BuildTask

/-- The names of recipe files. -/
def recipeNames : List String := ["dub.sdl", "dub.json"]

/-- The source of discovered tasks, which is also their type. -/
def sourceName : String := "dub"

/-- What finds problems in the output of the compiler. -/
def problemMatcher : String := "$dmd"

/-- Where a package is. -/
structure PackagePlace where
  path : RawText
  /-- Its path from the folder on, empty for the folder itself. -/
  relative : RawText
deriving DecidableEq, Repr

/-- Whether a name is hidden. A name that is no text never is. -/
def isHidden (name : RawText) : Bool :=
  name.text?.any fun text => text.toList.head? = some '.'

/-- Whether a name is that of a recipe. -/
def isRecipeName (name : RawText) : Bool :=
  name.text?.any recipeNames.contains

/-- How many levels below a folder recipes are looked for. -/
def searchDepth : Nat := 2

/-- The names that lead to the folder that holds what was found, if that is a recipe. -/
def packageOf? : List RawText × FileTree → Option (List RawText)
  | (names, tree) =>
    if tree.isFile && isRecipeName (names.getLast?.getD "") then some names.dropLast else none

/-- Puts names at their place among others that are in order, unless they are there. -/
def insertNames (names : List RawText) : List (List RawText) → List (List RawText)
  | [] => [names]
  | others :: rest =>
    if names = others then others :: rest
    else if names < others then names :: others :: rest
    else others :: insertNames names rest

/-- Where the package is that names lead to from the folder at a path. -/
def placeOf (path : RawText) : List RawText → PackagePlace
  | [] => ⟨path.trimmed, ""⟩
  | names => ⟨path.join (.ofParts names), .ofParts names⟩

/-- The packages at a path and one level below it, each once, in the order of their
paths. A path to a recipe names the package that it belongs to. -/
def packagesAt (root : FileTree) (path : RawText) : List PackagePlace :=
  match root.at? path with
  | none => []
  | some (.file _) => if isRecipeName path.fileName then [⟨path.parent, ""⟩] else []
  | some folder =>
    let packages := (folder.walk (!isHidden ·) searchDepth).filterMap packageOf?
    (packages.foldr insertNames []).map (placeOf path)

/-- What can be done with a package: the name of the task, its group, and its
definition for the package at a path as it is displayed. -/
def variants (path : String) : List (String × Option TaskGroup × TaskDefinition) :=
  let base : TaskDefinition := { root := some path }
  [("build", some .build, base),
    ("rebuild", some .rebuild, { base with force := true }),
    ("test", some .test, { base with test := true }),
    ("run", none, { base with run := true })]

/-- A definition as it is stored by an editor, which keeps its type with it. -/
def stored (d : TaskDefinition) : Json :=
  (Json.object (d.members ++ [("type", .string sourceName)])).canonical

/-- The tasks of a package. -/
def ofPackage (program : String) (folder : Folder) (p : PackagePlace) : List BuildTask :=
  (variants p.path.display).map fun (action, group, d) =>
    { definition := stored d
      scope := folder.url.render
      exec := d.command program
      name := if p.relative = "" then action else action ++ " (" ++ p.relative.display ++ ")"
      source := sourceName
      group
      problemMatchers := [problemMatcher] }

/-- The tasks of a folder, which has none unless it is one of this computer. -/
def ofFolder (root : FileTree) (program : String) (folder : Folder) : List BuildTask :=
  match folder.url.filePath? with
  | none => []
  | some path => (packagesAt root path).flatMap (ofPackage program folder)

/-- The tasks of a workspace. -/
def discover (root : FileTree) (folders : List Folder) (program : String) : List BuildTask :=
  folders.flatMap (ofFolder root program)

/-- The tasks of the folder that a path leads to, as a text. -/
def listing? (root : FileTree) (path : RawText) (program : String) : Option String :=
  (root.names? path).map fun names =>
    let folder : Folder := ⟨Url.ofDirectory names, (names.getLast?.bind RawText.text?).getD ""⟩
    (Json.array ((discover root [folder] program).map BuildTask.toJson)).pretty

end PackageRecipe.BuildTask
