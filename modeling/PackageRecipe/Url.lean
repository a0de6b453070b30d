import PackageRecipe.RawText
import PackageRecipe.Url.Host

/-!
# URLs

What names a document or a folder of an editor, and what is asked of a registry.
`Url.parse?` reads a URL and brings it into its normal form, in which `Url.render`
writes it: the scheme and the host in lower case, the path without dot segments,
and what may not stand for itself percent-encoded.
-/

namespace PackageRecipe

/-- The part of a URL that names a server. -/
structure Url.Authority where
  /-- What stands in front of the at sign, empty if there is none. -/
  credentials : String := ""
  host : String
  port : Option Nat := none
deriving DecidableEq, Repr, Inhabited

/-- The path of a URL. -/
inductive Url.Path where
  /-- Segments, each with a slash in front of it. -/
  | segments (names : List String)
  /-- A text that has no parts. -/
  | whole (text : String)
deriving DecidableEq, Repr, Inhabited

/-- A URL in its normal form. -/
structure Url where
  scheme : String
  authority : Option Url.Authority
  path : Url.Path
  query : Option String := none
  fragment : Option String := none
deriving DecidableEq, Repr, Inhabited

namespace Url

/-! ## Writing -/

/-- An authority as it is written. -/
def Authority.render (a : Authority) : String :=
  (if a.credentials.isEmpty then "" else a.credentials ++ "@") ++ a.host ++
    (a.port.map fun p => ":" ++ toString p).getD ""

/-- A path as it is written. -/
def Path.render : Path → String
  | .segments names => String.join (names.map ("/" ++ ·))
  | .whole text => text

/-- What stands between the scheme and the path. A path that starts with two
slashes is kept apart from a host. -/
def renderAuthority (url : Url) : String :=
  match url.authority, url.path with
  | some a, _ => "//" ++ a.render
  | none, .segments ("" :: _ :: _) => "/."
  | none, _ => ""

/-- A URL as it is written. -/
def render (url : Url) : String :=
  url.scheme ++ ":" ++ url.renderAuthority ++ url.path.render ++
    (url.query.map ("?" ++ ·)).getD "" ++ (url.fragment.map ("#" ++ ·)).getD ""

instance : ToString Url := ⟨render⟩

/-! ## Characters -/

/-- A visible character of ASCII or a blank. -/
def isPrintable (c : Char) : Bool :=
  ' ' ≤ c ∧ c < '\x7f'

/-- The characters that stand for themselves in a fragment. -/
def isPlainInFragment (c : Char) : Bool :=
  isPrintable c && !([' ', '"', '<', '>', '\x60'].contains c)

/-- The characters that stand for themselves in a path. -/
def isPlainInPath (c : Char) : Bool :=
  isPlainInFragment c && !(['#', '?', '\x7b', '\x7d'].contains c)

/-- The characters that stand for themselves in a name or a password. -/
def isPlainInCredentials (c : Char) : Bool :=
  isPlainInPath c && !(['/', ':', ';', '=', '@', '[', '\\', ']', '^', '|'].contains c)

/-- The characters that stand for themselves in a query. Web addresses encode a
single quote, too. -/
def isPlainInQuery (isWeb : Bool) (c : Char) : Bool :=
  isPrintable c && !([' ', '"', '#', '<', '>'].contains c) && !(isWeb && c == '\'')

/-- The characters that stand for themselves in the name of a file. -/
def isPlainInFileName (c : Char) : Bool :=
  isPlainInPath c && !(['/', '%', '\\'].contains c)

/-- A text with all but its plain characters percent-encoded. -/
def encoded (plain : Char → Bool) (text : List Char) : String :=
  String.ofList (Percent.encode plain text)

/-! ## Paths -/

/-- Whether a segment of a path is a single dot, which may be encoded. -/
def isSingleDot (part : List Char) : Bool :=
  let s := String.ofList (part.map Host.lower)
  s == "." || s == "%2e"

/-- Whether a segment of a path is two dots, each of which may be encoded. -/
def isDoubleDot (part : List Char) : Bool :=
  [".." , ".%2e", "%2e.", "%2e%2e"].contains (String.ofList (part.map Host.lower))

/-- Whether a segment names a drive: a letter and a colon or a bar. -/
def isDrive : List Char → Bool
  | [letter, mark] => ('a' ≤ Host.lower letter && Host.lower letter ≤ 'z') && (mark == ':' || mark == '|')
  | _ => false

/-- A path without its last segment. The drive of a file's path stays. -/
def shorten (isFile : Bool) (names : List String) : List String :=
  match names with
  | [drive] => if isFile && isDrive drive.toList then names else []
  | _ => names.dropLast

/-- A path followed by one more segment. Two dots take the segment before them
away and a single dot does nothing; at the end of a path both leave a slash. -/
def addSegment (isFile : Bool) (isLast : Bool) (names : List String) (part : List Char) :
    List String :=
  if isDoubleDot part then
    if isLast then shorten isFile names ++ [""] else shorten isFile names
  else if isSingleDot part then
    if isLast then names ++ [""] else names
  else if isFile && names.isEmpty && isDrive part then
    names ++ [String.ofList (part.take 1) ++ ":"]
  else
    names ++ [encoded isPlainInPath part]

/-- A path followed by the given segments. -/
def addSegments (isFile : Bool) (names : List String) : List (List Char) → List String
  | [] => names
  | [part] => addSegment isFile true names part
  | part :: parts => addSegments isFile (addSegment isFile false names part) parts

/-- The segments of a path that is given without its first slash. -/
def segmentsOf (isFile : Bool) (text : List Char) : List String :=
  addSegments isFile [] (Text.splitOn '/' text)

/-- A list without the empty texts at its start, of which the last text stays. -/
def dropEmpty : List String → List String
  | "" :: name :: names => dropEmpty (name :: names)
  | names => names

/-! ## Reading -/

/-- The schemes of web addresses and the ports that they leave out. -/
def webSchemes : List (String × Nat) :=
  [("ftp", 21), ("http", 80), ("https", 443), ("ws", 80), ("wss", 443)]

/-- A text up to the first occurrence of a character, and what stands after it. -/
def cutAt (mark : Char) (text : List Char) : List Char × Option (List Char) :=
  match text.dropWhile (· != mark) with
  | [] => (text, none)
  | _ :: rest => (text.takeWhile (· != mark), some rest)

/-- A text up to the last occurrence of a character, if it occurs, and what stands
after it. -/
def cutAtLast (mark : Char) (text : List Char) : Option (List Char) × List Char :=
  match cutAt mark text.reverse with
  | (last, some before) => (some before.reverse, last.reverse)
  | (_, none) => (none, text)

/-- The scheme in front of the first colon, and what stands after it. -/
def cutScheme? (text : List Char) : Option (String × List Char) :=
  match cutAt ':' text with
  | (name@(first :: _), some rest) =>
    if 'a' ≤ Host.lower first ∧ Host.lower first ≤ 'z' ∧
        name.all fun c => Percent.isAlphanumeric c || ['+', '-', '.'].contains c then
      some (String.ofList (name.map Host.lower), rest)
    else none
  | _ => none

/-- A name and a password that are separated by a colon. -/
def credentialsOf (text : List Char) : String :=
  match cutAt ':' text with
  | (name, some password) =>
    encoded isPlainInCredentials name ++
      (if password.isEmpty then "" else ":" ++ encoded isPlainInCredentials password)
  | (name, none) => encoded isPlainInCredentials name

/-- A host and what stands after the colon behind it. A colon in brackets belongs
to the host. -/
def cutPort (text : List Char) : List Char × Option (List Char) :=
  match text with
  | '[' :: _ =>
    match cutAt ']' text with
    | (inner, some (':' :: digits)) => (inner ++ [']'], some digits)
    | _ => (text, none)
  | _ => cutAt ':' text

/-- The number of a port; the usual port of a scheme is left out. -/
def port? (usual : Option Nat) : Option (List Char) → Option (Option Nat)
  | none => some none
  | some [] => some none
  | some digits => do
    let number ← Host.number? 10 digits
    if 65535 < number then none
    else if usual = some number then some none
    else some (some number)

/-- The authority that a text names. Web addresses must have a host. -/
def authority? (scheme : String) (text : List Char) : Option Authority := do
  let usual := webSchemes.lookup scheme
  let (credentials, server) := cutAtLast '@' text
  let (name, digits) := cutPort server
  if name.isEmpty && (usual.isSome || credentials.isSome || digits.isSome) then none
  else
    let host ← if usual.isSome then Host.ofWeb? name else Host.ofOther? name
    let port ← port? usual digits
    pure ⟨(credentials.map credentialsOf).getD "", host, port⟩

/-- The path behind an authority, which starts with a slash unless it is empty. -/
def pathOf (isWeb : Bool) (text : List Char) : Path :=
  match text with
  | [] => .segments (if isWeb then [""] else [])
  | _ :: rest => .segments (segmentsOf false rest)

/-- The authority and the path of a URL of a file. A path that starts with a drive
belongs to no host, and neither does one of the local host. -/
def fileParts? (text : List Char) : Option (Authority × Path) := do
  match text with
  | '/' :: '/' :: rest =>
    let name := rest.takeWhile (· != '/')
    if isDrive name then pure (⟨"", "", none⟩, filePath rest)
    else
      let path := filePath ((rest.dropWhile (· != '/')).drop 1)
      let host ← if name.isEmpty then some "" else Host.ofWeb? name
      if host == "localhost" || startsWithDrive path then pure (⟨"", "", none⟩, path)
      else pure (⟨"", host, none⟩, path)
  | '/' :: rest => pure (⟨"", "", none⟩, filePath rest)
  | rest => pure (⟨"", "", none⟩, filePath rest)
where
  /-- The path of a file, without empty segments at its start. -/
  filePath (text : List Char) : Path :=
    .segments (dropEmpty (segmentsOf true text))
  /-- Whether the first segment of a path names a drive. -/
  startsWithDrive : Path → Bool
    | .segments (name :: _) => isDrive name.toList
    | _ => false

/-- The authority and the path that stand behind a scheme. In web addresses and in
those of files a backslash counts as a slash. -/
def parts? (scheme : String) (text : List Char) : Option (Option Authority × Path) := do
  let slashed := text.map fun c => if c = '\\' then '/' else c
  if scheme == "file" then
    let (authority, path) ← fileParts? slashed
    pure (some authority, path)
  else if (webSchemes.lookup scheme).isSome then
    let rest := slashed.dropWhile (· == '/')
    let authority ← authority? scheme (rest.takeWhile (· != '/'))
    pure (some authority, pathOf true (rest.dropWhile (· != '/')))
  else
    match text with
    | '/' :: '/' :: rest =>
      let authority ← authority? scheme (rest.takeWhile (· != '/'))
      pure (some authority, pathOf false (rest.dropWhile (· != '/')))
    | '/' :: rest => pure (none, .segments (segmentsOf false rest))
    | rest => pure (none, .whole (encoded isPrintable rest))

/-- A text without the blanks and control characters at its ends. -/
def trimControls (text : List Char) : List Char :=
  ((text.dropWhile (· ≤ ' ')).reverse.dropWhile (· ≤ ' ')).reverse

/-- The URL that a text writes. Tabs and line ends in it do not count. -/
def parse? (text : String) : Option Url := do
  let cs := (trimControls text.toList).filter fun c => !(['\t', '\n', '\r'].contains c)
  let (scheme, rest) ← cutScheme? cs
  let (rest, fragment) := cutAt '#' rest
  let (rest, query) := cutAt '?' rest
  let (authority, path) ← parts? scheme rest
  let isWeb := scheme == "file" || (webSchemes.lookup scheme).isSome
  pure { scheme, authority, path
         query := query.map (encoded (isPlainInQuery isWeb))
         fragment := fragment.map (encoded isPlainInFragment) }

/-! ## Files -/

/-- The segments of the path, unless it has none. -/
def segments? (url : Url) : Option (List String) :=
  match url.path with
  | .segments (name :: names) => some (name :: names)
  | _ => none

/-- The last segment of the path. -/
def fileName? (url : Url) : Option String :=
  url.segments?.bind List.getLast?

/-- The name of recipes that are read. -/
def recipeName : String := "dub.sdl"

/-- Whether a URL names a recipe that is read. -/
def isRecipe (url : Url) : Bool :=
  url.fileName? == some recipeName

/-- The path of the file of this computer that a URL names. -/
def filePath? (url : Url) : Option RawText := do
  let names ← url.segments?
  if ["", "localhost"].contains ((url.authority.map (·.host)).getD "") then
    some (closeDrive ⟨names.flatMap fun name => Percent.decode ('/' :: name.toList)⟩)
  else none
where
  /-- A path that ends with a drive, with a slash after it. -/
  closeDrive (path : RawText) : RawText :=
    match path.bytes.reverse with
    | mark :: letter :: _ :: _ =>
      if isDrive [Char.ofNat letter.toNat, Char.ofNat mark.toNat] then path ++ "/" else path
    | _ => path

/-- The URL of a directory that is reached by the given names from the root on. -/
def ofDirectory (names : List RawText) : Url where
  scheme := "file"
  authority := some ⟨"", "", none⟩
  path :=
    let written (name : RawText) := String.ofList (Percent.encodeBytes isPlainInFileName name.bytes)
    .segments (names.map written ++ [""])

end Url

end PackageRecipe
