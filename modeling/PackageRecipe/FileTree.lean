import PackageRecipe.RawText
import PackageRecipe.Text.Split

/-!
# File trees

Files and folders as a value. A path is a raw text whose parts are separated by
slashes; it leads from the root of a tree to a place in it.
-/

namespace PackageRecipe

/-! ## Paths -/

namespace RawText

/-- The byte of a slash. -/
def slash : UInt8 := 0x2F

/-- The parts of a path. -/
def parts (path : RawText) : List RawText :=
  (Text.splitOn slash path.bytes).map mk

/-- The path with the given parts. -/
def ofParts (parts : List RawText) : RawText :=
  ⟨[slash].intercalate (parts.map bytes)⟩

/-- A path followed by a name. -/
def join (path name : RawText) : RawText :=
  if path.bytes.getLast? = some slash then path ++ name else path ++ "/" ++ name

/-- A part of a path that stays where it is. -/
def isStill (part : RawText) : Bool :=
  part = "" || part = "."

/-- A path without the parts at its end that stay where they are. -/
def trimmed (path : RawText) : RawText :=
  match (path.parts.reverse.dropWhile isStill).reverse with
  | [] => "/"
  | kept => ofParts kept

/-- The path of the folder that holds what a path leads to. -/
def parent (path : RawText) : RawText :=
  (ofParts path.parts.dropLast).trimmed

/-- The last part of a path. -/
def fileName (path : RawText) : RawText :=
  path.parts.getLast?.getD ""

end RawText

/-- A file with its content, or a folder with its named entries. -/
inductive FileTree where
  | file (content : String)
  | folder (entries : List (RawText × FileTree))

namespace FileTree

instance : Inhabited FileTree := ⟨.folder []⟩

/-- The folder without entries. -/
def empty : FileTree := .folder []

/-- The content of a file. -/
def content? : FileTree → Option String
  | .file content => some content
  | .folder _ => none

/-- The entries of a folder. -/
def entries? : FileTree → Option (List (RawText × FileTree))
  | .file _ => none
  | .folder entries => some entries

/-- Whether a tree is a file. -/
def isFile (tree : FileTree) : Bool :=
  tree.content?.isSome

/-! ## Following a path -/

/-- The folders and the file that a path has led through, each with its name; the
last comes first. -/
abbrev Trail := List (RawText × FileTree)

/-- Where a trail from the root of a tree has led. -/
def Trail.place (root : FileTree) : Trail → FileTree
  | [] => root
  | (_, tree) :: _ => tree

/-- A trail followed by one more part of a path. Two dots lead back. -/
def Trail.follow? (root : FileTree) (trail : Trail) (part : RawText) : Option Trail := do
  let entries ← (trail.place root).entries?
  if part.isStill then some trail
  else if part = ".." then some trail.tail
  else (entries.lookup part).map fun tree => (part, tree) :: trail

/-- The trail along a path. -/
def trail? (root : FileTree) (path : RawText) : Option Trail :=
  path.parts.foldlM (Trail.follow? root) []

/-- What a path leads to. -/
def at? (root : FileTree) (path : RawText) : Option FileTree :=
  (root.trail? path).map (Trail.place root)

/-- The names that lead from the root to where a path leads. -/
def names? (root : FileTree) (path : RawText) : Option (List RawText) :=
  (root.trail? path).map fun trail => (trail.map (·.1)).reverse

/-- The content of the file that a path leads to. -/
def read? (root : FileTree) (path : RawText) : Option String :=
  (root.at? path).bind content?

/-! ## Walking -/

/-- What a walk finds in a tree: everything that is at most `depth` levels below it, each
with the names that lead to it. Behind a name that is not kept nothing is found. -/
def walk (keep : RawText → Bool) : (depth : Nat) → FileTree → List (List RawText × FileTree)
  | 0, tree => [([], tree)]
  | depth + 1, tree =>
    ([], tree) :: (tree.entries?.getD []).flatMap fun (name, inner) =>
      if keep name then (walk keep depth inner).map fun (names, found) => (name :: names, found)
      else []

/-! ## Building

Trees are put together along paths that are texts. -/

/-- The parts of a path. -/
def parts (path : String) : List String :=
  (Text.splitOn '/' path.toList).map String.ofList

/-- A path as seen from a folder: itself if it starts at the root. -/
def absolute (folder path : String) : String :=
  if path.startsWith "/" then path else folder ++ "/" ++ path

/-- The entries with the entry of a name changed by `f`, which is given the entry
so far; a new name is put at the end. -/
def alterEntry (name : RawText) (f : Option FileTree → FileTree) :
    List (RawText × FileTree) → List (RawText × FileTree)
  | [] => [(name, f none)]
  | (key, tree) :: rest =>
    if key = name then (key, f (some tree)) :: rest else (key, tree) :: alterEntry name f rest

/-- A tree with another tree at the place that names lead to. Folders on the way
are made. A folder that is put where a folder stands already changes nothing. -/
def insert (tree : FileTree) (names : List String) (new : FileTree) : FileTree :=
  match names with
  | [] =>
    match new, tree with
    | .folder [], .folder entries => .folder entries
    | _, _ => new
  | name :: rest =>
    .folder (alterEntry name (fun old => insert (old.getD empty) rest new)
      (tree.entries?.getD []))

/-- Names followed by one more part of a path, where two dots lead back. -/
def step (names : List String) (part : String) : List String :=
  if RawText.isStill part then names
  else if part = ".." then names.dropLast
  else names ++ [part]

/-- A tree in which a path leads to another tree. Folders on the way are made, also
those that the path leaves again. -/
def graft (tree : FileTree) (path : String) (new : FileTree) : FileTree :=
  let (tree, names) := (parts path).foldl (fun (tree, names) part =>
    (tree.insert (step names part) empty, step names part)) (tree, [])
  tree.insert names new

end FileTree

end PackageRecipe
