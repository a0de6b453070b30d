import Mathlib
import PackageRecipe.Registry

/-!
# Visits to a server

What a registry asks for during a look-up, and what it makes of the answer.

## Main Definitions

* `Registry.Visit` — the world outside during a look-up
* `Registry.Visit.transport` — that world as a transport, which notes what it is asked for
* `Registry.answer` — what a look-up makes of a reply
* `Reply.content?` — what a reply tells if nothing is wrong with it

## Design Notes

A look-up asks for one address at most, so one reply is enough for the server, and two readings
are enough for the clock.  The state of the transport is the list of the addresses that were asked
for, and a look-up is known by its address and the reply (`fetch_eq`).
-/

namespace PackageRecipe

variable {α : Type} {read : Json → Option α} {url : String}

/-- What a reply tells, if the server answers as asked and sends what is read. -/
def Reply.content? (read : Json → Option α) (reply : Reply) : Option α :=
  if 200 ≤ reply.status ∧ reply.status < 300 then (Json.read? reply.body).bind read else none

namespace Registry

/-- The world outside during a look-up. -/
structure Visit where
  /-- The clock when the look-up begins. -/
  start : ℕ
  /-- What the server answers if it is asked; without a connection there is no answer. -/
  reply : Option Reply
  /-- The clock once the server has been asked. -/
  stop : ℕ
deriving DecidableEq

/-- The world outside as a transport, which notes the addresses that it is asked for. -/
def Visit.transport (v : Visit) : Transport (StateM (List Url)) where
  get u := fun asked => (v.reply, asked ++ [u])
  now := fun asked => (if asked.isEmpty then v.start else v.stop, asked)

/-- What a look-up makes of a reply from an address. -/
def answer (read : Json → Option α) (url : String) (reply : Option Reply) : Except Error α :=
  if (target? url).isSome then reply.elim (.error .unreachable) (decode read url)
  else .error .unreachable

/-- **A look-up asks for its address alone**, if it is one of the web. -/
theorem fetch_eq (v : Visit) : fetch v.transport read url =
    fun asked => (answer read url v.reply, asked ++ (target? url).toList) := by
  funext asked
  unfold fetch answer
  cases target? url with
  | none => exact congrArg _ (List.append_nil asked).symm
  | some u =>
      obtain ⟨start, reply, stop⟩ := v
      cases reply <;> rfl

/-- What is asked for does not depend on the reply. -/
theorem asked_fetch (v : Visit) (read : Json → Option α) (url : String) :
    ((fetch v.transport read url).run []).2 = (target? url).toList := by
  rw [fetch_eq]
  rfl

theorem toOption_decode {reply : Reply} :
    (decode read url reply).toOption = reply.content? read := by
  unfold decode Status.isSuccess Reply.content?
  simp only [Bool.and_eq_true, decide_eq_true_eq]
  split_ifs
  · cases (Json.read? reply.body).bind read <;> rfl
  · rfl

/-- What is read was sent by an address that was asked for. -/
theorem toOption_answer {reply : Option Reply} : (answer read url reply).toOption =
    if (target? url).isSome then reply.bind (·.content? read) else none := by
  unfold answer
  split_ifs
  · cases reply with
    | none => rfl
    | some reply => exact toOption_decode
  · rfl

end Registry

end PackageRecipe
