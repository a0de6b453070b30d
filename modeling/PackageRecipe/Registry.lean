import PackageRecipe.Json.Reader
import PackageRecipe.Registry.Answer
import PackageRecipe.Registry.Status
import PackageRecipe.Settings
import PackageRecipe.Url

/-!
# The registry

Packages are looked up at a web address. The list of all packages is kept for a
while; every other look-up sends one request. The network and the clock are
operations of a monad, so that a pure one can stand for them.
-/

namespace PackageRecipe

/-- What a server answers. -/
structure Reply where
  status : Nat
  body : String
deriving DecidableEq, Repr

/-- How the world outside is reached. -/
structure Transport (m : Type → Type) where
  /-- Sends a request; without a connection there is no answer. -/
  get : Url → m (Option Reply)
  /-- The nanoseconds on a clock that never goes back. -/
  now : m Nat

/-- A registry with the list of packages that it keeps. -/
structure Registry where
  /-- The web address, without slashes at its end. -/
  base : String
  /-- The seconds for which the list is kept. -/
  ttl : Nat
  /-- When the list was stored, and the list. -/
  stored : Option (Nat × List String) := none
deriving DecidableEq, Repr

namespace Registry

/-- Why a look-up fails. -/
inductive Error where
  /-- The address is none of the web, or nobody answers there. -/
  | unreachable
  | refused (url : String) (status : Nat)
  /-- The answer is not what was asked for. -/
  | undecodable
deriving DecidableEq, Repr

/-- The message of a refusal. -/
def Error.refusal (url : String) (status : Nat) : String :=
  url ++ " returned HTTP " ++ Status.describe status

/-- The registry that settings name. -/
def ofSettings (s : Settings) : Registry where
  base := String.ofList (s.registryUrl.toList.reverse.dropWhile (· == '/')).reverse
  ttl := s.packageListTtl

/-! ## Addresses -/

/-- Where packages are searched for. -/
def searchUrl (r : Registry) (query : String) : String :=
  r.base ++ "/api/packages/search?q=" ++ Url.Percent.component query

/-- Where the list of packages is. -/
def listUrl (r : Registry) : String :=
  r.base ++ "/packages/index.json"

/-- Where the releases of a package are. -/
def historyUrl (r : Registry) (name : String) : String :=
  r.base ++ "/api/packages/" ++ Url.Percent.component name ++ "/info"

/-- Where the latest version of a package is described. -/
def latestUrl (r : Registry) (name : String) : String :=
  r.base ++ "/api/packages/" ++ Url.Percent.component name ++ "/latest/info"

/-- The address that a request is sent to, if it is one of the web. -/
def target? (url : String) : Option Url :=
  (Url.parse? url).filter fun u => u.scheme == "http" || u.scheme == "https"

/-- What a reply from an address tells. -/
def decode {α : Type} (read : Json → Option α) (url : String) (reply : Reply) : Except Error α :=
  if Status.isSuccess reply.status then
    match (Json.read? reply.body).bind read with
    | some a => .ok a
    | none => .error .undecodable
  else .error (.refused url reply.status)

/-- The nanoseconds in a second. -/
def nanoseconds : Nat := 1000000000

/-- The list of packages, if it is still to be used. -/
def kept? (r : Registry) (now : Nat) : Option (List String) :=
  r.stored.bind fun (time, names) => if now - time < nanoseconds * r.ttl then some names else none

/-! ## Look-ups -/

section

variable {m : Type → Type} [Monad m]

/-- Asks an address. -/
def fetch {α : Type} (t : Transport m) (read : Json → Option α) (url : String) :
    m (Except Error α) := do
  match target? url with
  | none => pure (.error .unreachable)
  | some u =>
    match ← t.get u with
    | none => pure (.error .unreachable)
    | some reply => pure (decode read url reply)

/-- The packages that fit a query. -/
def search (t : Transport m) (r : Registry) (query : String) :
    m (Except Error (List FoundPackage)) :=
  fetch t (Json.list? FoundPackage.ofJson?) (r.searchUrl query)

/-- The releases of a package. -/
def history (t : Transport m) (r : Registry) (name : String) : m (Except Error PackageHistory) :=
  fetch t PackageHistory.ofJson? (r.historyUrl name)

/-- The latest version of a package. -/
def latest (t : Transport m) (r : Registry) (name : String) : m (Except Error PackageSummary) :=
  fetch t PackageSummary.ofJson? (r.latestUrl name)

/-- The names of all packages, which are asked for when they are not kept. Only an
answer with names is stored. -/
def names (t : Transport m) : StateT Registry m (Except Error (List String)) := do
  let r ← get
  match r.kept? (← t.now) with
  | some names => pure (.ok names)
  | none =>
    match ← (fetch t Json.strings? r.listUrl : m _) with
    | .error e => pure (.error e)
    | .ok names =>
      set { r with stored := some (← t.now, names) }
      pure (.ok names)

/-- The registry as an index of packages. -/
def index (t : Transport m) : PackageIndex (StateT Registry m) where
  names := do pure (← names t).toOption
  releases name := do
    let found ← (history t (← get) name : m _)
    pure (found.toOption.map (·.releases))
  latest name := do
    let found ← (latest t (← get) name : m _)
    pure found.toOption

end

end Registry

end PackageRecipe
