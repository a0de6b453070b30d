import PackageRecipe.CommandLine
import PackageRecipe.Json.Writer
import PackageRecipe.Registry
import PackageRecipe.Report
import PackageRecipe.Settings.Reading
import PackageRecipe.Task.Discovery

/-!
# The program

What a command prints and how it ends.
-/

namespace PackageRecipe

/-- Where a program runs. -/
structure Surroundings where
  /-- Files, the folder of the user and the variables of the environment. -/
  sources : Settings.Sources
  /-- The folder that the program was started in. -/
  folder : String

namespace Surroundings

/-- The settings of the surroundings, which are the usual ones if they cannot be
read. -/
def settings (s : Surroundings) : Settings :=
  match Settings.read s.sources s.folder with
  | .ok settings => settings
  | .error _ => {}

/-- A path as seen from the folder that the program was started in. -/
def absolute (s : Surroundings) (path : String) : String :=
  FileTree.absolute s.folder path

end Surroundings

/-- Why a command fails. -/
inductive Command.Failure where
  | unreadableFile (path : String)
  | invalidDefinition
  | missingFolder (path : String)
  | registry (e : Registry.Error)
deriving DecidableEq, Repr

/-- What a command prints, and whether it is content. -/
structure Command.Outcome where
  lines : List String
  succeeded : Bool := true
deriving DecidableEq, Repr

namespace Command

/-- The message of a failure. -/
def Failure.message : Failure → String
  | unreadableFile path => "Failed to read " ++ path
  | invalidDefinition => "Invalid task definition"
  | missingFolder path => "Failed to resolve " ++ path
  | registry .unreachable => "The registry cannot be reached"
  | registry (.refused url status) => Registry.Error.refusal url status
  | registry .undecodable => "The answer of the registry cannot be read"

/-- The problems of a recipe. -/
def runCheck (s : Surroundings) (file : String) : Except Failure Outcome :=
  match s.sources.files.read? (s.absolute file) with
  | none => .error (.unreadableFile file)
  | some text =>
    let report := Report.ofText file text.toList
    .ok ⟨report.lines, !report.hasErrors⟩

/-- The command line of a task. -/
def runResolveTask (settings : Settings) (definition : String) (toolPath : Option String) :
    Except Failure Outcome :=
  match (Json.read? definition).bind TaskDefinition.ofJson? with
  | none => .error .invalidDefinition
  | some d =>
    .ok ⟨[(Json.ofStrings (d.command (toolPath.getD settings.toolPath))).compact], true⟩

/-- The tasks of a folder. -/
def runTasks (s : Surroundings) (settings : Settings) (folder : String) : Except Failure Outcome :=
  match BuildTask.listing? s.sources.files (s.absolute folder) settings.toolPath with
  | none => .error (.missingFolder folder)
  | some text => .ok ⟨[text], true⟩

/-- The line for a package that a search has found. -/
def foundLine (p : FoundPackage) : String :=
  match p.description with
  | some description => p.name ++ "\t" ++ description
  | none => p.name

/-- Runs a command. Serving an editor has no single outcome. -/
def run? {m : Type → Type} [Monad m] (t : Transport m) (s : Surroundings) :
    Command → Option (m (Except Failure Outcome))
  | .serve => none
  | .check file => some (pure (runCheck s file))
  | .resolveTask definition toolPath =>
    some (pure (runResolveTask s.settings definition toolPath))
  | .tasks folder => some (pure (runTasks s s.settings folder))
  | .search query => some do
    match ← Registry.search t (Registry.ofSettings s.settings) query with
    | .error e => pure (.error (.registry e))
    | .ok found => pure (.ok ⟨found.map foundLine, true⟩)

end Command

end PackageRecipe
