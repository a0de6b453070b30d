import PackageRecipe.Schema
import PackageRecipe.Settings
import PackageRecipe.Sdl.Document
import PackageRecipe.Text.Position

/-!
# Hovering

What is shown for the name under the cursor: the description of a tag or of an
attribute and the values that it takes.
-/

namespace PackageRecipe.Editor

open PackageRecipe.Sdl PackageRecipe.Text

/-- A text in Markdown for a part of a document. -/
structure Hover where
  markdown : String
  region : Region
deriving DecidableEq, Repr

namespace Hover

/-- A name in a document. -/
inductive Target where
  | tag (t : Tag)
  | attribute (a : Attribute)

/-- Whether a span contains an offset. -/
def covers (s : Span) (offset : Nat) : Bool :=
  s.start ≤ offset && offset < s.stop

mutual

/-- The first name among the tags that contains the offset, with the path that
leads to its tag. A tag comes before its attributes, and those before what is
below it. -/
def locate? (offset : Nat) : List Tag → Option (List QualifiedName × Target)
  | [] => none
  | t :: ts =>
    match locateTag? offset t with
    | some found => some found
    | none => locate? offset ts

/-- The first name of a tag or below it that contains the offset. -/
def locateTag? (offset : Nat) : Tag → Option (List QualifiedName × Target)
  | t@⟨_, _, _, _, _, _, children⟩ =>
    if covers t.nameSpan offset then some ([t.step], .tag t)
    else match t.attributes.find? fun a => covers a.nameSpan offset with
      | some a => some ([t.step], .attribute a)
      | none => (locate? offset children).map fun (path, target) => (t.step :: path, target)

end

/-- A text set as code. -/
def code (s : String) : String := "\u0060" ++ s ++ "\u0060"

/-- The kind and the members of a rule for values. -/
def describeValues (rule : ValueRule) : String :=
  "Type: " ++ code rule.kind.name ++
    match rule.members with
    | none => ""
    | some members => "\n\nOne of: " ++ ", ".intercalate (members.map code)

/-- The text about a name. -/
def describe (title description : String) (values : Option ValueRule) : String :=
  "**" ++ title ++ "**\n\n" ++ description ++
    match values with
    | none => ""
    | some rule => "\n\n" ++ describeValues rule

/-- The text about a name whose tag has the given node, and the span of the
name. Attributes that the node does not have are not described. -/
def ofTarget? (node : Node) : Target → Option (String × Span)
  | .tag t => some (describe t.qualifiedName node.description node.values, t.nameSpan)
  | .attribute a => do
    let rule ← node.attributes.get? a.qualifiedName
    some (describe a.qualifiedName rule.description (some rule.values), a.nameSpan)

/-- What is shown at an offset of a text. -/
def at? (schema : Schema) (settings : Settings) (text : List Char) (offset : Nat) :
    Option Hover :=
  if settings.hover then do
    let (path, target) ← locate? offset (Document.ofText text).root.children
    let node ← schema.resolve? path
    let (markdown, span) ← ofTarget? node target
    some ⟨markdown, Region.ofSpan text span⟩
  else none

end Hover

end PackageRecipe.Editor
