import PackageRecipe.Editor.Message
import PackageRecipe.Json.Record
import PackageRecipe.Session.Exchange
import PackageRecipe.Task.Message

/-!
# Messages of a session

The messages by which an editor and a session talk: requests, which carry a number
or a name to answer to, and notifications, which carry none.
-/

namespace PackageRecipe.Session

open PackageRecipe.Editor PackageRecipe.Text

/-! ## Answers -/

/-- The number of a refusal in messages. -/
def Refusal.code : Refusal → Int
  | early => -32002
  | late => -32600
  | unfitting => -32602
  | unknown => -32601

/-- The text about a refusal. -/
def Refusal.message : Refusal → String
  | early => "Server not initialized"
  | late => "Invalid request"
  | unfitting => "Invalid params"
  | unknown => "Method not found"

/-- A list of items in a message. More of them may follow what is typed next. -/
def itemsJson (items : List Completion.Item) : Json :=
  .object [("isIncomplete", .bool true), ("items", .array (items.map (·.toJson)))]

/-- An answer in a message. -/
def Answer.toJson : Answer → Json
  | hover found => .ofOption Hover.toJson found
  | completion found => .ofOption itemsJson found
  | outline found => .ofOption (fun symbols => .array (Symbol.toJsons symbols)) found
  | resolution item => item.toJson
  | tasks found => .array (found.map BoundTask.toJson)
  | execution e => e.toJson
  | stopped => .null

/-! ## Requests and notifications -/

/-- What an editor sends. -/
inductive Message where
  /-- The first request: the folders and the root of the workspace. -/
  | start (id : Json) (workspace : Option (Option (List Folder) × Option Url))
  | question (id : Json) (q : Except Refusal Question)
  | event (e : Event)
  /-- The editor leaves. -/
  | leave
  /-- A notification that does not matter. -/
  | other

namespace Message

/-- The value below names that lead into a message. -/
def at? (j : Json) (names : List String) : Option Json :=
  names.foldlM (fun j name => j.get? name) j

/-- The URL of the document that a message is about. -/
def url? (params : Json) : Option Url := do
  Url.parse? (← (← at? params ["textDocument", "uri"]).string?)

/-- The version of the document that a message is about. -/
def version? (params : Json) : Option Int := do
  (← at? params ["textDocument", "version"]).int?

/-- The position that a message is about. -/
def position? (params : Json) : Option Position := do
  Position.ofJson? (← params.get? "position")

/-- The question of a method with the given parameters. -/
def question? (method : String) (params : Json) : Except Refusal Question :=
  let fitting (q : Option Question) : Except Refusal Question :=
    match q with
    | some q => .ok q
    | none => .error .unfitting
  match method with
  | "textDocument/hover" => fitting do some (.hover (← url? params) (← position? params))
  | "textDocument/completion" =>
    fitting do some (.completion (← url? params) (← position? params))
  | "textDocument/documentSymbol" => fitting do some (.outline (← url? params))
  | "completionItem/resolve" => fitting ((Completion.Item.ofJson? params).map .resolution)
  | "dub/buildTasks" => .ok .tasks
  | "dub/resolveTask" => fitting ((TaskDefinition.ofJson? params).map .execution)
  | "shutdown" => .ok .stop
  | _ => .error .unknown

/-- The event of a method with the given parameters. -/
def event? (method : String) (params : Json) : Option Event :=
  match method with
  | "textDocument/didOpen" => do
    let text ← (← at? params ["textDocument", "text"]).string?
    some (.opened (← url? params) (← version? params) text)
  | "textDocument/didChange" => do
    let changes ← (← params.get? "contentChanges").array?
    let texts ← changes.mapM fun change => (change.get? "text").bind Json.string?
    some (.changed (← url? params) (← version? params) texts)
  | "textDocument/didClose" => (url? params).map .closed
  | "workspace/didChangeWorkspaceFolders" => do
    let folders (name : String) := (at? params ["event", name]).bind (Json.list? Folder.ofJson?)
    some (.foldersChanged (← folders "added") (← folders "removed"))
  | _ => none

/-- The folders and the root of the workspace in the first request. -/
def workspace? (params : Json) : Option (Option (List Folder) × Option Url) := do
  let nullable {α : Type} (name : String) (read : Json → Option α) : Option (Option α) :=
    match params.get? name with
    | none => some none
    | some .null => some none
    | some j => (read j).map some
  let folders ← nullable "workspaceFolders" (Json.list? Folder.ofJson?)
  let root ← nullable "rootUri" fun uri => uri.string?.bind Url.parse?
  pure (folders, root)

/-- Reads a message. -/
def ofJson (j : Json) : Message :=
  let method := ((j.get? "method").bind Json.string?).getD ""
  let params := (j.get? "params").getD .null
  match j.get? "id", method with
  | some id, "initialize" => start id (workspace? params)
  | some id, _ => question id (question? method params)
  | none, "exit" => leave
  | none, _ => ((event? method params).map event).getD other

/-! ## What a session sends -/

/-- The answer to a request. -/
def reply (id result : Json) : Json :=
  .object [("jsonrpc", .string "2.0"), ("id", id), ("result", result)]

/-- The refusal of a request. -/
def refuse (id : Json) (e : Refusal) : Json :=
  .object [("jsonrpc", .string "2.0"), ("id", id),
    ("error", .object [("code", .int e.code), ("message", .string e.message)])]

/-- A notification. -/
def notify (method : String) (params : Json) : Json :=
  .object [("jsonrpc", .string "2.0"), ("method", .string method), ("params", params)]

/-- The notification of the problems of a document. -/
def problemsJson (url : Url) (version : Option Int) (found : List Diagnostic) : Json :=
  .object ([("uri", .string url.render), ("diagnostics", .array (found.map Diagnostic.toJson))] ++
    (version.map fun v => ("version", .int v)).toList)

/-- A notice as a notification. -/
def ofNotice : Notice → Json
  | .problems url version found =>
    notify "textDocument/publishDiagnostics" (problemsJson url version found)
  | .settingsFailed _ =>
    notify "window/logMessage"
      (.object [("type", .nat 2), ("message", .string Notice.settingsWarning)])

end Message

end PackageRecipe.Session
