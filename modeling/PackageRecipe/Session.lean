import PackageRecipe.Completion
import PackageRecipe.Editor.Diagnostic
import PackageRecipe.Editor.Hover
import PackageRecipe.Editor.Outline
import PackageRecipe.Registry
import PackageRecipe.Schema.Recipe
import PackageRecipe.Settings.Reading
import PackageRecipe.Task.Discovery

/-!
# Sessions with an editor

A session holds the documents and the folders that are open in an editor. Each
edit of a recipe puts a check on the way, which is made after a delay: only then
the text is looked at, and the problems are sent if the document is still open at
the version of the edit. Everything else is answered at once.
-/

namespace PackageRecipe

open PackageRecipe.Editor PackageRecipe.Text

/-- A document that is open in an editor. -/
structure OpenDocument where
  text : String
  version : Int
deriving DecidableEq, Repr

/-- A check on the way: of a document at a version. -/
structure PendingCheck where
  url : Url
  version : Int
deriving DecidableEq, Repr

/-- What a session tells the editor without being asked. -/
inductive Notice where
  /-- The problems of a document, at a version unless it was closed. -/
  | problems (url : Url) (version : Option Int) (found : List Diagnostic)
  /-- The settings cannot be read. -/
  | settingsFailed (e : Settings.Error)

/-- The warning about settings that cannot be read. -/
def Notice.settingsWarning : String :=
  "Failed to load dub-lsp settings, using defaults"

/-- How far a session has come. -/
inductive Session.Phase where
  | waiting
  | running
  | over
deriving DecidableEq, Repr

/-- A session with an editor. -/
structure Session where
  phase : Session.Phase := .waiting
  settings : Settings := {}
  registry : Registry
  documents : List (Url × OpenDocument) := []
  folders : List Folder := []
  /-- The checks on the way, in the order of the edits. -/
  pending : List PendingCheck := []

namespace Session

/-- The session that a program starts with. -/
def ofSettings (settings : Settings) : Session where
  settings
  registry := .ofSettings settings

/-! ## What is open -/

/-- The open document at a URL. -/
def document? (s : Session) (url : Url) : Option OpenDocument :=
  s.documents.lookup url

/-- The documents without the one at a URL. -/
def without (url : Url) (documents : List (Url × OpenDocument)) : List (Url × OpenDocument) :=
  documents.filter fun (key, _) => key ≠ url

/-- The session with a document at a URL, whose check is put on the way if it is a
recipe. -/
def update (s : Session) (url : Url) (version : Int) (text : String) : Session :=
  { s with
    documents := (url, ⟨text, version⟩) :: without url s.documents
    pending := if url.isRecipe then s.pending ++ [⟨url, version⟩] else s.pending }

/-- A document was opened. -/
def opened (s : Session) (url : Url) (version : Int) (text : String) : Session :=
  s.update url version text

/-- A document was changed. Each of the texts is the whole document and the last
one counts. -/
def changed (s : Session) (url : Url) (version : Int) (texts : List String) : Session :=
  match texts.getLast? with
  | none => s
  | some text => s.update url version text

/-- A document was closed. A recipe has no problems from then on. -/
def closed (s : Session) (url : Url) : Session × List Notice :=
  ({ s with documents := without url s.documents },
    if url.isRecipe then [.problems url none []] else [])

/-- Folders were removed and added. -/
def foldersChanged (s : Session) (added removed : List Folder) : Session :=
  { s with folders := s.folders.filter (fun f => !removed.contains f) ++ added }

/-! ## Checks on the way -/

/-- What a check finds now: nothing once the document is closed or at another
version. -/
def check? (s : Session) (c : PendingCheck) : Option (List Diagnostic) := do
  let document ← s.document? c.url
  if document.version = c.version then
    some ((diagnostics? Schema.recipe s.settings document.text.toList).getD [])
  else none

/-- What a check tells the editor now. -/
def noticeOf? (s : Session) (c : PendingCheck) : Option Notice :=
  (s.check? c).map (.problems c.url (some c.version))

/-- Makes all checks that are on the way. -/
def settle (s : Session) : Session × List Notice :=
  ({ s with pending := [] }, s.pending.filterMap s.noticeOf?)

/-! ## Start and end -/

/-- The folders that an editor names, or else the one at the root. -/
def foldersOf (folders : Option (List Folder)) (root : Option Url) : List Folder :=
  folders.getD (root.map fun url => (⟨url, url.fileName?.getD ""⟩ : Folder)).toList

/-- Reads the settings for the first folder. Without a folder of this computer they
stay; settings that cannot be read are the usual ones. -/
def reload (sources : Settings.Sources) (folders : List Folder) (s : Session) :
    Session × List Notice :=
  match folders.head?.bind (·.url.filePath?) with
  | none => (s, [])
  | some path =>
    match Settings.read sources path with
    | .ok settings => ({ s with settings, registry := .ofSettings settings }, [])
    | .error e => ({ s with settings := {}, registry := .ofSettings {} }, [.settingsFailed e])

/-- The editor starts the session. -/
def start (sources : Settings.Sources) (folders : Option (List Folder)) (root : Option Url)
    (s : Session) : Session × List Notice :=
  let folders := foldersOf folders root
  let (s, notices) := s.reload sources folders
  ({ s with folders, phase := .running }, notices)

/-- The editor ends the session. -/
def stop (s : Session) : Session :=
  { s with phase := .over }

/-- What a session can do, as it is told to the editor. -/
def introduction : Json :=
  .object [
    ("capabilities", .object [
      ("textDocumentSync", .nat 1),
      ("hoverProvider", .bool true),
      ("completionProvider", .object [
        ("resolveProvider", .bool true),
        ("triggerCharacters", .ofStrings ["\"", "\u0060", "="])]),
      ("documentSymbolProvider", .bool true),
      ("workspace", .object [
        ("workspaceFolders", .object [
          ("supported", .bool true), ("changeNotifications", .bool true)])])]),
    ("serverInfo", .object [("name", .string "dub-lsp"), ("version", .string "0.1.0")])]

/-! ## Questions -/

/-- The text of an open recipe and the offset of a position in it. -/
def recipeAt? (s : Session) (url : Url) (p : Position) : Option (List Char × Nat) := do
  if url.isRecipe then
    let document ← s.document? url
    let text := document.text.toList
    let offset ← Position.toOffset? text p
    some (text, offset)
  else none

/-- What is shown on hovering at a position. -/
def hoverAt? (s : Session) (url : Url) (p : Position) : Option Hover := do
  let (text, offset) ← s.recipeAt? url p
  Hover.at? Schema.recipe s.settings text offset

/-- The outline of an open recipe. -/
def outlineOf? (s : Session) (url : Url) : Option (List Symbol) := do
  if url.isRecipe then
    let document ← s.document? url
    outline? document.text.toList
  else none

/-- The tasks of the folders. -/
def tasks (s : Session) (files : FileTree) : List BoundTask :=
  BuildTask.bindAll s.folders (BuildTask.discover files s.folders s.settings.toolPath)

/-- The program to start for a task. -/
def executionOf (s : Session) (d : TaskDefinition) : Execution :=
  d.execution s.settings.toolPath

section

variable {m : Type → Type} [Monad m]

/-- Asks the registry, which may keep the answer. -/
def askRegistry {α : Type} (question : StateT Registry m α) : StateT Session m α := do
  let s ← get
  let (answer, registry) ← (question.run s.registry : m _)
  set { s with registry }
  pure answer

/-- What may be typed at a position. -/
def completeAt? (t : Transport m) (url : Url) (p : Position) :
    StateT Session m (Option (List Completion.Item)) := do
  let s ← get
  match s.recipeAt? url p with
  | none => pure none
  | some (text, offset) =>
    let cursor := Cursor.ofOffset text offset
    let found ← askRegistry
      (Completion.complete Schema.recipe (Registry.index t) s.settings cursor)
    pure (some found)

/-- An item with what the registry knows about its package. -/
def resolve (t : Transport m) (item : Completion.Item) : StateT Session m Completion.Item :=
  askRegistry (Completion.resolve (Registry.index t) item)

end

end Session

end PackageRecipe
