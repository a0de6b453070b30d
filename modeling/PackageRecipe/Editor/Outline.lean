import PackageRecipe.Sdl.Document
import PackageRecipe.Text.Position

/-!
# Outlines

The tags of a document as a tree of symbols.
-/

namespace PackageRecipe.Editor

open PackageRecipe.Sdl PackageRecipe.Text

/-- What a symbol stands for. -/
inductive SymbolKind where
  | module
  | space
  | package
  | property
  | enumeration
  | object
deriving DecidableEq, Repr

/-- The number of a kind in editor messages. -/
def SymbolKind.code : SymbolKind → Nat
  | .module => 2
  | .space => 3
  | .package => 4
  | .property => 7
  | .enumeration => 10
  | .object => 19

/-- The kind of a tag: by its name if it has no namespace. -/
def SymbolKind.ofTag (t : Tag) : SymbolKind :=
  match t.space, t.name with
  | some _, _ => .property
  | none, "name" => .package
  | none, "configuration" => .space
  | none, "buildType" => .enumeration
  | none, "subPackage" => .module
  | none, "dependency" => .object
  | none, _ => .property

/-- A tag in an outline. -/
structure Symbol where
  name : String
  /-- The values of the tag. -/
  detail : Option String
  kind : SymbolKind
  region : Region
  /-- The region of the name. -/
  selection : Region
  children : List Symbol

mutual

/-- The symbol of a tag. -/
def Symbol.ofTag (text : List Char) : Tag → Symbol
  | t@⟨_, _, _, _, values, _, children⟩ =>
    let selection := Region.ofSpan text t.nameSpan
    { name := t.qualifiedName
      detail := if values.isEmpty then none else some (" ".intercalate (values.map Value.text))
      kind := SymbolKind.ofTag t
      region := (t.span.map (Region.ofSpan text)).getD selection
      selection := selection
      children := Symbol.ofTags text children }

/-- The symbols of tags. -/
def Symbol.ofTags (text : List Char) : List Tag → List Symbol
  | [] => []
  | t :: ts => Symbol.ofTag text t :: Symbol.ofTags text ts

end

/-- The outline of a text, or `none` if it has no tags. -/
def outline? (text : List Char) : Option (List Symbol) :=
  let symbols := Symbol.ofTags text (Document.ofText text).root.children
  if symbols.isEmpty then none else some symbols

end PackageRecipe.Editor
