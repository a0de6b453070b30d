import PackageRecipe.Program
import PackageRecipe.Session.Message

/-!
# The program on a computer

Shows the commands the files and the variables that they look at, prints what they
answer, and carries messages between a session and an editor. Nothing is decided
here.
-/

namespace PackageRecipe.Main

/-! ## The surroundings -/

/-- The ends of the names of settings files. -/
def settingsSuffixes : List String := "" :: Settings.formats.map (·.1)

/-- The names of the files that are read. -/
def readNames : List String :=
  BuildTask.recipeNames ++
    ["settings", ".dub-lsp"].flatMap fun name => settingsSuffixes.map (name ++ ·)

/-- What is at a path, down to a depth. Only files with names that matter are
read. -/
def load (depth : Nat) (path : String) : IO (Option FileTree) := do
  try
    let place ← IO.FS.realPath path
    if ← place.isDir then
      match depth with
      | 0 => pure (some .empty)
      | depth + 1 =>
        let entries ← (← place.readDir).toList.filterMapM fun entry => do
          pure ((← load depth entry.path.toString).map (RawText.ofString entry.fileName, ·))
        pure (some (.folder entries))
    else if ← place.pathExists then
      if (RawText.fileName path).text?.any readNames.contains then
        pure (some (.file (← IO.FS.readFile place)))
      else pure (some (.file ""))
    else pure none
  catch _ => pure none

/-- A tree with what is at a path. -/
def graftFrom (depth : Nat) (tree : FileTree) (path : String) : IO FileTree := do
  match ← load depth path with
  | some found => pure (tree.graft path found)
  | none => pure tree

/-- The variables of the environment that are set. -/
def environment : IO (List (String × String)) :=
  Settings.names.filterMapM fun name => do
    let name := (Settings.variablePrefix ++ name).toUpper
    pure ((← IO.getEnv name).map (name, ·))

/-- The files, the folder of the user and the variables, for the given folders and
for the folder that settings are read in. -/
def sources (folders : List String) (settingsFolder : String) : IO Settings.Sources := do
  let home := (← IO.getEnv "HOME").getD "/"
  let tree ← folders.foldlM (graftFrom 2) (FileTree.empty.graft settingsFolder .empty)
  let candidates := [Settings.homePath home, Settings.folderPath settingsFolder].flatMap
    fun path => settingsSuffixes.map (path ++ ·)
  pure { files := ← candidates.foldlM (graftFrom 0) tree, home, environment := ← environment }

/-- A path without links, if it leads anywhere. -/
def resolved (path : String) : IO String := do
  try
    pure (← IO.FS.realPath path).toString
  catch _ => pure path

/-- A connection that cannot be made. -/
def transport : Transport IO where
  get _ := pure none
  now := IO.monoNanosNow

/-! ## Commands -/

/-- The text about the program. -/
def usage : List String :=
  ["Usage: dub-lsp [COMMAND]", "", "Commands:",
    "  serve         Run the language server on stdio",
    "  check         Print diagnostics for a dub.sdl file",
    "  resolve-task  Print the dub command line for a JSON task definition",
    "  tasks         Print the build tasks found under a directory as JSON",
    "  search        Search the package registry",
    "  help          Print this message or the help of the given subcommand(s)"]

/-- The text about a call that is refused. -/
def refusalText : Command.Refusal → String
  | .unknownCommand => "error: unrecognized subcommand"
  | .unknownArgument => "error: unexpected argument found"
  | .missingArgument => "error: a required argument was not provided"
  | .invalidValue => "error: a value is required"
  | .repeatedOption => "error: an argument cannot be used multiple times"
  | .surplusValue => "error: an unexpected value was found"
  | .help => "\n".intercalate usage
  | .version => "dub-lsp 0.1.0"

/-- Prints why there is no command to run. -/
def refuse (e : Command.Refusal) : IO UInt32 := do
  match e with
  | .help | .version =>
    IO.println (refusalText e)
    pure 0
  | e =>
    IO.eprintln (refusalText e)
    pure 2

/-- The command with its folder in full, and what it sees. -/
def surroundings (command : Command) : IO (Command × Surroundings) := do
  let folder ← resolved "."
  match command with
  | .tasks path => do
    let path ← resolved path
    pure (.tasks path, ⟨← sources [path] folder, folder⟩)
  | .check file => do
    let sources ← sources [] folder
    try
      let text ← IO.FS.readFile file
      let files := sources.files.graft (FileTree.absolute folder file) (.file text)
      pure (command, ⟨{ sources with files }, folder⟩)
    catch _ => pure (command, ⟨sources, folder⟩)
  | _ => do pure (command, ⟨← sources [] folder, folder⟩)

/-- Prints what a command answers. -/
def report : Except Command.Failure Command.Outcome → IO UInt32
  | .ok outcome => do
    outcome.lines.forM IO.println
    pure (if outcome.succeeded then 0 else 1)
  | .error e => do
    IO.eprintln ("Error: " ++ e.message)
    pure 1

/-! ## Serving an editor -/

/-- Reads the length of the body that follows the lines of a header; there is none
at the end of the input. -/
partial def readLength? (input : IO.FS.Stream) (length : Option Nat) : IO (Option Nat) := do
  let line ← input.getLine
  let text := line.trimAscii.toString
  if text.isEmpty then pure (if line.isEmpty then none else length)
  else
    let label := "content-length:"
    if text.toLower.startsWith label then
      readLength? input (text.drop label.length).trimAscii.toString.toNat?
    else readLength? input length

/-- Reads bytes until the wanted number is there or the input ends. -/
partial def readBytes (input : IO.FS.Stream) (count : Nat) (got : ByteArray) : IO ByteArray := do
  if count ≤ got.size then pure got
  else
    let more ← input.read (count - got.size).toUSize
    if more.isEmpty then pure got else readBytes input count (got ++ more)

/-- Sends a message. -/
def send (output : IO.FS.Stream) (j : Json) : IO Unit := do
  let text := j.compact
  output.putStr ("Content-Length: " ++ toString text.utf8ByteSize ++ "\r\n\r\n" ++ text)
  output.flush

/-- What a session with the given folders sees. -/
def sessionSources (folders : List Folder) : IO Settings.Sources := do
  let paths := folders.filterMap fun folder => folder.url.filePath?.bind RawText.text?
  sources paths (paths.headD "/")

/-- Takes a message: the session after it, and what is sent. The session is gone
when the editor leaves. -/
def take (s : Session) : Session.Message → IO (Option Session × List Json)
  | .start id workspace => do
    let folders := (workspace.map fun (folders, root) => Session.foldersOf folders root).getD []
    match s.begin (← sessionSources folders) workspace with
    | .error e => pure (some s, [Session.Message.refuse id e])
    | .ok (s, notices) =>
      pure (some s, Session.Message.reply id Session.introduction ::
        notices.map Session.Message.ofNotice)
  | .question id q => do
    let sources ← sessionSources s.folders
    let (answer, s) ← (Session.ask transport sources.files q).run s
    pure (some s, [match answer with
      | .ok a => Session.Message.reply id a.toJson
      | .error e => Session.Message.refuse id e])
  | .event e => do
    let (s, notices) := s.tell e
    let (s, found) := s.settle
    pure (some s, (notices ++ found).map Session.Message.ofNotice)
  | .leave => pure (none, [])
  | .other => pure (some s, [])

/-- Serves an editor until it leaves. -/
partial def serve (input output : IO.FS.Stream) (s : Session) : IO Unit := do
  match ← readLength? input none with
  | none => pure ()
  | some length =>
    let body := String.fromUTF8? (← readBytes input length .empty)
    match body.bind Json.read? with
    | none => serve input output s
    | some j =>
      let (next, sent) ← take s (Session.Message.ofJson j)
      sent.forM (send output)
      match next with
      | some s => serve input output s
      | none => pure ()

/-- Runs a command. -/
def run (command : Command) : IO UInt32 := do
  let (command, surroundings) ← surroundings command
  match command.run? transport surroundings with
  | some outcome => report (← outcome)
  | none =>
    serve (← IO.getStdin) (← IO.getStdout) (.ofSettings surroundings.settings)
    pure 0

end PackageRecipe.Main

/-- Runs what the arguments ask for. -/
def main (arguments : List String) : IO UInt32 := do
  match PackageRecipe.Command.ofArguments arguments with
  | .error e => PackageRecipe.Main.refuse e
  | .ok command => PackageRecipe.Main.run (command.getD .serve)
