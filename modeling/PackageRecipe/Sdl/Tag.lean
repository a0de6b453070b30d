import PackageRecipe.Sdl.Value
import PackageRecipe.Keyed

/-!
# Tags

A tag has a name, positional values, attributes and child tags. The views group
the children and the attributes of a tag by name; `Tag.descendants` lists all
tags below it in reading order.
-/

namespace PackageRecipe.Sdl

open PackageRecipe.Text

/-- A name as it is written, `namespace:name` if there is a namespace. -/
def qualify (space : Option String) (name : String) : String :=
  match space with
  | none => name
  | some space => if space.isEmpty then name else space ++ ":" ++ name

/-- The name of a tag and its namespace, which is empty when none is written. -/
structure QualifiedName where
  space : String
  name : String
deriving DecidableEq, Repr

/-- A name without a namespace. -/
def QualifiedName.plain (name : String) : QualifiedName := ⟨"", name⟩

/-- A value with a name. -/
structure Attribute where
  space : Option String
  name : String
  nameSpan : Span
  value : Value
deriving DecidableEq, Repr

/-- The name of an attribute with its namespace. -/
def Attribute.qualifiedName (a : Attribute) : String :=
  qualify a.space a.name

/-- A tag of a document. -/
structure Tag where
  space : Option String
  name : String
  nameSpan : Span
  /-- The whole statement with its block; absent for the root. -/
  span : Option Span
  values : List Value
  attributes : List Attribute
  /-- The tags of the block in reading order. -/
  children : List Tag

instance : Inhabited Tag := ⟨⟨none, "", ⟨0, 0⟩, none, [], [], []⟩⟩

namespace Tag

/-- The name of a tag with its namespace. -/
def qualifiedName (t : Tag) : String :=
  qualify t.space t.name

/-- The name and the namespace of a tag. -/
def step (t : Tag) : QualifiedName :=
  ⟨t.space.getD "", t.name⟩

/-- The children without a namespace, by name. -/
def plainChildren (t : Tag) : Keyed (List Tag) :=
  Keyed.group ((t.children.filter (·.space.isNone)).map fun c => (c.name, c))

/-- The children with a namespace, by namespace and then by name. -/
def spacedChildren (t : Tag) : Keyed (Keyed (List Tag)) :=
  (Keyed.group (t.children.filterMap fun c => c.space.map (·, c))).map fun (space, cs) =>
    (space, Keyed.group (cs.map fun c => (c.name, c)))

/-- The values of the attributes, by qualified name. -/
def attributeValues (t : Tag) : Keyed (List Value) :=
  Keyed.group (t.attributes.map fun a => (a.qualifiedName, a.value))

mutual

/-- The tags below a tag, each before its own children. -/
def descendants : Tag → List Tag
  | ⟨_, _, _, _, _, _, children⟩ => preorder children

/-- Tags with all that is below them, in reading order. -/
def preorder : List Tag → List Tag
  | [] => []
  | t :: ts => t :: (descendants t ++ preorder ts)

end

end Tag

end PackageRecipe.Sdl
