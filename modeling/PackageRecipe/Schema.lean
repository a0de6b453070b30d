import PackageRecipe.Sdl.Tag
import PackageRecipe.Text.Pattern

/-!
# Schemas

A schema says which tags a document may hold: for each tag its values, its
attributes and its children. The children of a node may be those of the root
again, so that a finite schema describes documents of any depth.
`Schema.resolve?` follows a path of names to a node.
-/

namespace PackageRecipe

open PackageRecipe.Sdl

/-- Where candidates for a value come from. -/
inductive Source where
  /-- The names of registered packages and of their sub-packages. -/
  | packageName
  /-- The versions of the package that the first value names. -/
  | packageVersion
  /-- License names and the words that join them. -/
  | license
deriving DecidableEq, Repr

/-- A pattern together with its written form. -/
structure WrittenPattern where
  source : String
  pattern : Text.Pattern

/-- What a value must be. -/
structure ValueRule where
  kind : ValueKind := .string
  /-- The pattern of the whole text. -/
  pattern : Option WrittenPattern := none
  /-- A check of its own, which answers the message for a value it rejects. -/
  check : Option (Value → Option String) := none
  source : Option Source := none
  /-- The texts that are allowed. -/
  members : Option (List String) := none
  /-- Texts other than the members are accepted too. -/
  openEnded : Bool := false

/-- What an attribute means and which values it takes. -/
structure AttributeRule where
  description : String
  values : ValueRule

/-- The child tags of a node. -/
inductive Content (α : Type) where
  /-- No block. -/
  | none
  /-- The given tags. -/
  | own (tags : List (String × α))
  /-- The tags of the root. -/
  | root

/-- What a tag may hold. -/
structure Node where
  description : String := ""
  /-- The rule for each positional value; absent when there are to be none. -/
  values : Option ValueRule := none
  attributes : Keyed AttributeRule := []
  content : Content Node := .none
  /-- The namespace that the tag must be written with. -/
  space : Option String := none
  minValues : Option Nat := none
  maxValues : Option Nat := none
  /-- The block may not be empty. -/
  needsChildren : Bool := false

instance : Inhabited Node := ⟨{}⟩

/-- The namespace of a tag as it is written, empty if it declares none. -/
def Node.spaceName (n : Node) : String :=
  n.space.getD ""

/-- What a document may hold. -/
structure Schema where
  title : String
  root : Node
  /-- The namespaces that tags may be written with. -/
  spaces : List String
  /-- The tags that must stand at the root. -/
  required : List String

namespace Schema

/-- The tags that may stand below a node. -/
def childrenOf (s : Schema) (n : Node) : Option (Keyed Node) :=
  match n.content with
  | .none => none
  | .own tags => some tags
  | .root =>
    match s.root.content with
    | .own tags => some tags
    | _ => none

/-- The node of a tag below another. The namespace must be the declared one. -/
def step? (s : Schema) (n : Node) (q : QualifiedName) : Option Node := do
  let child ← (← s.childrenOf n).get? q.name
  if child.spaceName = q.space then some child else none

/-- The node that a path of names leads to from the root. -/
def resolve? (s : Schema) (path : List QualifiedName) : Option Node :=
  path.foldlM s.step? s.root

end Schema

end PackageRecipe
