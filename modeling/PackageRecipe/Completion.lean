import PackageRecipe.Completion.Item
import PackageRecipe.Completion.Ranking
import PackageRecipe.Completion.ReleaseDate
import PackageRecipe.Completion.Version
import PackageRecipe.Editor.Cursor
import PackageRecipe.Package
import PackageRecipe.Schema.License
import PackageRecipe.Settings

/-!
# Completion

What may be typed at a cursor: the tags of a block, the attributes of a tag, or
the values of either. Package names and versions are looked up in an index;
where a look-up fails there are no candidates.
-/

namespace PackageRecipe.Completion

open PackageRecipe.Sdl PackageRecipe.Editor

/-- A text as it must be written inside a snippet. -/
def escapeSnippet (text : String) : String :=
  String.ofList (text.toList.flatMap fun c =>
    if c == '$' || c == '\x7d' || c == '\\' then ['\\', c] else [c])

/-- The tags that may stand below a node. -/
def tagItems (schema : Schema) (node : Node) : List Item :=
  ((schema.childrenOf node).getD []).map fun (name, child) =>
    { label := name
      kind := some ItemKind.field.code
      documentation := some (.plain child.description)
      insertText := some (qualify child.space name) }

/-- The attributes that a node may have. A string comes with its quotes. -/
def attributeItems (node : Node) : List Item :=
  node.attributes.map fun (name, rule) =>
    { label := name
      kind := some ItemKind.variable.code
      detail := some rule.values.kind.name
      documentation := some (.plain rule.description)
      insertText :=
        some (if rule.values.kind = .string then escapeSnippet name ++ "=\"$1\"" else name ++ "=")
      insertTextFormat := some (if rule.values.kind = .string then snippet else plainText) }

/-- A value of the given kind. -/
def valueItem (kind : ValueKind) (value : String) : Item :=
  { label := value, kind := some ItemKind.value.code, detail := some kind.name,
    insertText := some value }

/-- A keyword for a truth value. -/
def keywordItem (kind : ValueKind) (word : String) : Item :=
  { label := word, kind := some ItemKind.keyword.code, detail := some kind.name }

/-- The member of an item's data that names the package to describe. -/
def packageKey : String := "package"

/-- The name of a package, which can be described on request. -/
def packageItem (name : String) : Item :=
  { label := name, kind := some ItemKind.property.code,
    data := some (.object [(packageKey, .string name)]) }

/-- The name of a sub-package. -/
def subPackageItem (package : String) (description : Option String) (name : String) : Item :=
  { label := package ++ ":" ++ name, kind := some ItemKind.property.code,
    documentation := description.map .plain, insertText := some name }

/-- A version of a package. -/
def releaseItem (r : Release) : Item :=
  { label := r.version
    kind := some ItemKind.type.code
    detail := r.date.map fun date => "Released on " ++ releaseDay date
    sortText := some (versionKey r.version)
    insertText := some r.version }

/-- What stands in front of the first colon of a text, if it has one. -/
def beforeColon? (text : String) : Option String :=
  if text.toList.contains ':' then some (String.ofList (text.toList.takeWhile (· != ':')))
  else none

section

variable {m : Type → Type} [Monad m]

/-- The names of packages that match what is typed or, behind a colon, the
sub-packages of the package before it. -/
def packageItems (index : PackageIndex m) (settings : Settings) (typed : String) :
    m (List Item) := do
  match beforeColon? typed with
  | some package =>
    match ← index.latest package with
    | some summary => pure (summary.subPackages.map (subPackageItem package summary.description))
    | none => pure []
  | none =>
    match ← index.names with
    | some names =>
      pure ((matchingNames queryScore settings.maxPackages typed names).map packageItem)
    | none => pure []

/-- The versions of the package that the only value names, newest first. -/
def releaseItems (index : PackageIndex m) (values : List Value) : m (List Item) := do
  match values with
  | [package] =>
    match ← index.releases package.text with
    | some releases => pure (releases.reverse.map releaseItem)
    | none => pure []
  | _ => pure []

/-- The values that a rule allows. -/
def valueItems (index : PackageIndex m) (settings : Settings) (cursor : Cursor)
    (rule : ValueRule) : m (List Item) :=
  match rule.source, rule.members with
  | some .license, _ => pure ((License.complete cursor.typed).map (valueItem rule.kind))
  | some .packageName, _ => packageItems index settings cursor.typed
  | some .packageVersion, _ => releaseItems index cursor.values
  | none, some members => pure (members.map (valueItem rule.kind))
  | none, none =>
    if rule.kind = .boolean then pure (["true", "false"].map (keywordItem rule.kind))
    else pure []

/-- The rule for the value that is typed at a cursor of a node. -/
def ruleAt? (node : Node) (cursor : Cursor) : Option ValueRule :=
  match cursor.attributeName with
  | some name => (node.attributes.get? name).map (·.values)
  | none => node.values

/-- What may be typed at a cursor. -/
def complete (schema : Schema) (index : PackageIndex m) (settings : Settings) (cursor : Cursor) :
    m (List Item) :=
  match schema.resolve? cursor.path with
  | none => pure []
  | some node =>
    match cursor.kind with
    | .comment => pure []
    | .block => pure (tagItems schema node)
    | .attribute => pure (attributeItems node)
    | .value =>
      match ruleAt? node cursor with
      | some rule => valueItems index settings cursor rule
      | none => pure []

/-- The package that an item asks to describe. -/
def packageOf? (item : Item) : Option String := do
  (← (← item.data).get? packageKey).string?

/-- An item with what a summary tells about its package; what the summary lacks
stays as it is. -/
def Item.describe (item : Item) (summary : PackageSummary) : Item :=
  { item with
    documentation := (summary.description.map .plain).or item.documentation
    detail := summary.version.or item.detail }

/-- An item with the description and the latest version of its package. Items
without a package, and those whose look-up fails, stay as they are. -/
def resolve (index : PackageIndex m) (item : Item) : m Item := do
  match packageOf? item with
  | none => pure item
  | some package =>
    match ← index.latest package with
    | some summary => pure (item.describe summary)
    | none => pure item

end

end PackageRecipe.Completion
