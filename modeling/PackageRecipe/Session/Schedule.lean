import PackageRecipe.Session.Exchange

/-!
# The order of events and checks

A check waits until its delay is over, looks at the document and sends what it found. These
are steps of their own: what an editor tells the session may come between any two of them,
and so may the steps of other checks. A `Schedule` is a session with its checks on the way,
which may go on in any order; `Session.settle` makes one check after the other.
-/

namespace PackageRecipe.Session

/-- How far a check has come. -/
inductive Stage where
  /-- Its delay is not over. -/
  | waiting
  /-- It is about to look at the document. -/
  | due
  /-- It looked at the document and is about to send what it found. -/
  | found (notice : Notice)
  /-- It has sent what it found, or there was nothing to send. -/
  | over

/-- What a check does next. -/
inductive Step where
  /-- The delay is over. -/
  | expire
  | look
  | send
deriving DecidableEq, Repr

/-- The stage of a check after a step, and what it sends. The step must be the next one. -/
def Stage.next? (s : Session) (c : PendingCheck) : Step → Stage → Option (Stage × List Notice)
  | .expire, .waiting => some (.due, [])
  | .look, .due => some (((s.noticeOf? c).map .found).getD .over, [])
  | .send, .found notice => some (.over, [notice])
  | _, _ => none

/-- A check and how far it has come. -/
structure Progress where
  check : PendingCheck
  stage : Stage

/-- A session and its checks in the order of the edits. A check stays in its place when it
is over. -/
structure Schedule where
  session : Session
  checks : List Progress := []

/-- What happens next. -/
inductive Move where
  | event (e : Event)
  /-- The check at the given place makes a step. -/
  | step (place : Nat) (step : Step)

/-- The schedule of a session, behind the checks that are on the way already. -/
def schedule (s : Session) (before : List Progress := []) : Schedule where
  session := { s with pending := [] }
  checks := before ++ s.pending.map fun check => ⟨check, .waiting⟩

namespace Schedule

/-- The schedule after a move, and what is sent; nothing if a check cannot make the step. -/
def move? (t : Schedule) : Move → Option (Schedule × List Notice)
  | .event e =>
    let (s, sent) := t.session.after e
    some (s.schedule t.checks, sent)
  | .step place step => do
    let p ← t.checks[place]?
    let (stage, sent) ← p.stage.next? t.session p.check step
    some ({ t with checks := t.checks.set place { p with stage } }, sent)

/-- The schedule after some moves, and what is sent. -/
def run? (t : Schedule) : List Move → Option (Schedule × List Notice)
  | [] => some (t, [])
  | m :: ms => do
    let (t, sent) ← t.move? m
    let (t, later) ← t.run? ms
    some (t, sent ++ later)

end Schedule

end PackageRecipe.Session
