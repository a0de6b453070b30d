import PackageRecipe.Session

/-!
# Exchanges with an editor

What an editor says in a session and what it is answered. Events change what is
open and have no answer. Before a session runs and after it is over, events do not
count and questions are refused.
-/

namespace PackageRecipe.Session

open PackageRecipe.Editor PackageRecipe.Text

/-- What an editor tells a session. -/
inductive Event where
  | opened (url : Url) (version : Int) (text : String)
  /-- The texts are those of the whole document, in order. -/
  | changed (url : Url) (version : Int) (texts : List String)
  | closed (url : Url)
  | foldersChanged (added removed : List Folder)

/-- What an editor asks a session. -/
inductive Question where
  | hover (url : Url) (p : Position)
  | completion (url : Url) (p : Position)
  | outline (url : Url)
  | resolution (item : Completion.Item)
  | tasks
  | execution (d : TaskDefinition)
  /-- Whether the session can end, which it does. -/
  | stop

/-- The answer to a question. -/
inductive Answer where
  | hover (found : Option Hover)
  | completion (found : Option (List Completion.Item))
  | outline (found : Option (List Symbol))
  | resolution (item : Completion.Item)
  | tasks (found : List BoundTask)
  | execution (e : Execution)
  | stopped

/-- Why a question is not answered. -/
inductive Refusal where
  /-- The session does not run yet. -/
  | early
  /-- The session is over. -/
  | late
  /-- The question is not of its form. -/
  | unfitting
  /-- There is no such question. -/
  | unknown
deriving DecidableEq, Repr

/-- Starts a session, which is done once, for the folders and the root that an
editor names. -/
def begin (sources : Settings.Sources) (workspace : Option (Option (List Folder) × Option Url))
    (s : Session) : Except Refusal (Session × List Notice) :=
  match s.phase, workspace with
  | .waiting, some (folders, root) => .ok (s.start sources folders root)
  | .waiting, none => .error .unfitting
  | _, _ => .error .late

/-- The session after an event, and what it tells the editor. -/
def after (s : Session) : Event → Session × List Notice
  | .opened url version text => (s.opened url version text, [])
  | .changed url version texts => (s.changed url version texts, [])
  | .closed url => s.closed url
  | .foldersChanged added removed => (s.foldersChanged added removed, [])

/-- Tells a session of an event. -/
def tell (s : Session) (e : Event) : Session × List Notice :=
  if s.phase = .running then s.after e else (s, [])

section

variable {m : Type → Type} [Monad m]

/-- The answer of a running session, which sees the given files. -/
def answer (t : Transport m) (files : FileTree) : Question → StateT Session m Answer
  | .hover url p => do pure (.hover ((← get).hoverAt? url p))
  | .completion url p => do pure (.completion (← completeAt? t url p))
  | .outline url => do pure (.outline ((← get).outlineOf? url))
  | .resolution item => do pure (.resolution (← resolve t item))
  | .tasks => do pure (.tasks ((← get).tasks files))
  | .execution d => do pure (.execution ((← get).executionOf d))
  | .stop => do
    modify stop
    pure .stopped

/-- Asks a session. What is not of the form of a question is refused by a session
that runs. -/
def ask (t : Transport m) (files : FileTree) (question : Except Refusal Question) :
    StateT Session m (Except Refusal Answer) := do
  match (← get).phase, question with
  | .waiting, _ => pure (.error .early)
  | .over, _ => pure (.error .late)
  | .running, .error e => pure (.error e)
  | .running, .ok q => do pure (.ok (← answer t files q))

end

end PackageRecipe.Session
