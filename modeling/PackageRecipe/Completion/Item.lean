import PackageRecipe.Json

/-!
# Completion items

What an editor is offered to insert, and its form in editor messages.
-/

namespace PackageRecipe.Completion

/-- What an item stands for. -/
inductive ItemKind where
  | field
  | variable
  | type
  | property
  | value
  | keyword
deriving DecidableEq, Repr

/-- The number of a kind in editor messages. -/
def ItemKind.code : ItemKind → Int
  | .field => 5
  | .variable => 6
  | .type => 7
  | .property => 10
  | .value => 12
  | .keyword => 14

/-- The number for text that is inserted as it stands. -/
def plainText : Int := 1

/-- The number for text with places to fill in. -/
def snippet : Int := 2

/-- A text about an item. -/
inductive Documentation where
  | plain (text : String)
  | markup (kind text : String)
deriving DecidableEq, Repr

/-- An item. Members of a message that this library does not look at are kept in
`others`. -/
structure Item where
  label : String
  kind : Option Int := none
  detail : Option String := none
  documentation : Option Documentation := none
  sortText : Option String := none
  insertText : Option String := none
  insertTextFormat : Option Int := none
  data : Option Json := none
  others : List (String × Json) := []

namespace Item

/-- The members that are kept as they are, each with the test of its value. -/
def otherMembers : List (String × (Json → Bool)) :=
  [("labelDetails", (·.object?.isSome)),
   ("deprecated", (·.bool?.isSome)),
   ("preselect", (·.bool?.isSome)),
   ("filterText", (·.string?.isSome)),
   ("insertTextMode", (·.int?.isSome)),
   ("textEdit", (·.object?.isSome)),
   ("additionalTextEdits", (·.array?.isSome)),
   ("command", (·.object?.isSome)),
   ("commitCharacters", fun j => j.array?.any (·.all (·.string?.isSome))),
   ("tags", fun j => j.array?.any (·.all (·.int?.isSome)))]

/-- A member of a message, where `null` means that it is absent. -/
def member? (j : Json) (name : String) : Option Json :=
  match j.get? name with
  | some .null => none
  | found => found

/-- Reads an optional member, and fails if it is there in the wrong form. -/
def optional {α : Type} (j : Json) (name : String) (read : Json → Option α) :
    Option (Option α) :=
  match member? j name with
  | none => some none
  | some v => (read v).map some

/-- Reads a text about an item. -/
def documentation? (j : Json) : Option Documentation :=
  match j with
  | .string s => some (.plain s)
  | j => do
    let kind ← (← j.get? "kind").string?
    let text ← (← j.get? "value").string?
    if kind = "plaintext" ∨ kind = "markdown" then some (.markup kind text) else none

/-- Reads an item from a message. -/
def ofJson? (j : Json) : Option Item := do
  let label ← (← j.get? "label").string?
  let kind ← optional j "kind" Json.int?
  let detail ← optional j "detail" Json.string?
  let documentation ← optional j "documentation" documentation?
  let sortText ← optional j "sortText" Json.string?
  let insertText ← optional j "insertText" Json.string?
  let insertTextFormat ← optional j "insertTextFormat" Json.int?
  let others ← otherMembers.mapM fun (name, test) =>
    (optional j name fun v => if test v then some v else none).map fun v => v.map (name, ·)
  some { label, kind, detail, documentation, sortText, insertText, insertTextFormat,
         data := member? j "data", others := others.filterMap id }

/-- A text about an item in a message. -/
def documentationJson : Documentation → Json
  | .plain text => .string text
  | .markup kind text => .object [("kind", .string kind), ("value", .string text)]

/-- The form of an item in a message, without the members that are absent. -/
def toJson (i : Item) : Json :=
  let members : List (String × Option Json) :=
    [("label", some (.string i.label)), ("kind", i.kind.map .int),
     ("detail", i.detail.map .string), ("documentation", i.documentation.map documentationJson),
     ("sortText", i.sortText.map .string), ("insertText", i.insertText.map .string),
     ("insertTextFormat", i.insertTextFormat.map .int), ("data", i.data)]
  .object (members.filterMap (fun (name, v) => v.map (name, ·)) ++ i.others)

end Item

end PackageRecipe.Completion
