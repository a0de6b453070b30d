import PackageRecipe.Json.Record

/-!
# Task definitions

What a user writes to have a package built, tested or run, and the command line
that does it.
-/

namespace PackageRecipe

/-- A task as it is stored by an editor. -/
structure TaskDefinition where
  /-- Whether the package is run instead of built. -/
  run : Bool := false
  /-- Whether the package is tested, which counts before `run`. -/
  test : Bool := false
  /-- The folder of the package. -/
  root : Option String := none
  /-- The folder that the program is started in. -/
  cwd : Option String := none
  overrides : List String := []
  force : Bool := false
  compiler : Option String := none
  arch : Option String := none
  build : Option String := none
  configuration : Option String := none
  /-- What is appended to the command line. -/
  args : List String := []
deriving DecidableEq, Repr, Inhabited

/-- A program to start. -/
structure Execution where
  process : String
  args : List String
  /-- The folder to start in, if it matters. -/
  cwd : Option String := none
deriving DecidableEq, Repr

namespace TaskDefinition

/-! ## Reading and writing -/

/-- The names of the fields in their order. -/
def fieldNames : List String :=
  ["run", "test", "root", "cwd", "overrides", "force", "compiler", "archType", "buildType",
    "configuration", "args"]

/-- Reads a definition, all of whose fields may be missing. -/
def ofJson? (j : Json) : Option TaskDefinition := do
  let r ← j.record? fieldNames
  pure {
    run := ← r.defaulted "run" false Json.bool?
    test := ← r.defaulted "test" false Json.bool?
    root := ← r.nullable "root" Json.string?
    cwd := ← r.nullable "cwd" Json.string?
    overrides := ← r.defaulted "overrides" [] Json.strings?
    force := ← r.defaulted "force" false Json.bool?
    compiler := ← r.nullable "compiler" Json.string?
    arch := ← r.nullable "archType" Json.string?
    build := ← r.nullable "buildType" Json.string?
    configuration := ← r.nullable "configuration" Json.string?
    args := ← r.defaulted "args" [] Json.strings? }

/-- The fields of a definition as members of an object. -/
def members (d : TaskDefinition) : List (String × Json) :=
  [("run", .bool d.run), ("test", .bool d.test), ("root", .ofString? d.root),
    ("cwd", .ofString? d.cwd), ("overrides", .ofStrings d.overrides), ("force", .bool d.force),
    ("compiler", .ofString? d.compiler), ("archType", .ofString? d.arch),
    ("buildType", .ofString? d.build), ("configuration", .ofString? d.configuration),
    ("args", .ofStrings d.args)]

/-- Writes all fields, `null` for those that are missing. -/
def toJson (d : TaskDefinition) : Json :=
  .object d.members

/-! ## The command line -/

/-- What the program is to do. -/
def action (d : TaskDefinition) : String :=
  if d.test then "test" else if d.run then "run" else "build"

/-- An option with its value. There is none for a missing or empty value. -/
def option (name : String) (value : Option String) : List String :=
  match value with
  | none => []
  | some "" => []
  | some text => [name ++ "=" ++ text]

/-- The command line for a definition, from the program on. -/
def command (d : TaskDefinition) (program : String) : List String :=
  [program, d.action] ++
    option "--root" d.root ++
    d.overrides.map ("--override-config=" ++ ·) ++
    (if d.force then ["--force"] else []) ++
    option "--compiler" d.compiler ++
    option "--arch" d.arch ++
    option "--build" d.build ++
    option "--config" d.configuration ++
    d.args

/-- The program to start for a definition. -/
def execution (d : TaskDefinition) (program : String) : Execution where
  process := (d.command program).headD ""
  args := (d.command program).tail
  cwd := d.cwd.filter (· ≠ "")

end TaskDefinition

/-- Writes a program to start. The folder is left out if it does not matter. -/
def Execution.toJson (e : Execution) : Json :=
  .object ([("process", .string e.process), ("args", .ofStrings e.args)] ++
    (e.cwd.map fun cwd => ("cwd", Json.string cwd)).toList)

end PackageRecipe
