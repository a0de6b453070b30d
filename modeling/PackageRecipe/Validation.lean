import PackageRecipe.Schema
import PackageRecipe.Sdl.Document

/-!
# Validation

`validate` holds a document against a schema. It walks the tags together with
the nodes of the schema and answers findings: the problems of the text, and what
the schema does not allow.
-/

namespace PackageRecipe

open PackageRecipe.Sdl PackageRecipe.Text

/-- What is wrong with a document. -/
inductive Fault where
  /-- A problem of the text. -/
  | malformed (cause : Cause)
  /-- A tag in a namespace that the schema does not list. -/
  | unknownSpace (space : String)
  | unknownTag (name : String)
  /-- A tag without the namespace that it must be written with. -/
  | wrongSpace
  /-- A tag whose block is empty but may not be. -/
  | missingChildren
  | wrongKind (expected : ValueKind)
  /-- A value that the check of its rule rejects. -/
  | rejected (message : String)
  /-- A value outside the pattern of its rule. -/
  | unmatched
  /-- A value outside the members of its rule. -/
  | notMember
  | tooFewValues (least : Nat)
  | tooManyValues (most : Nat)
  | unknownAttribute (name : String)
  /-- A tag that must stand at the root and does not. -/
  | missingTag (name : String)
deriving DecidableEq, Repr

/-- The wording of a fault. -/
def Fault.message : Fault → String
  | .malformed cause => cause.message
  | .unknownSpace space => "Unknown namespace '" ++ space ++ "'"
  | .unknownTag name => "Unknown tag '" ++ name ++ "'"
  | .wrongSpace => "Invalid namespace"
  | .missingChildren => "This node must have children"
  | .wrongKind expected => "Type mismatch. Expected type: " ++ expected.name
  | .rejected message => message
  | .unmatched => "This value does not match the pattern"
  | .notMember => "This is not a valid value"
  | .tooFewValues least => "Not enough values. Requires at least " ++ toString least
  | .tooManyValues most => "Too many values. Allows at most " ++ toString most
  | .unknownAttribute name => "Unknown attribute '" ++ name ++ "'"
  | .missingTag name => "Missing required tag '" ++ name ++ "'"

/-- What the schema does not know is a warning, as is a text outside a pattern;
all else is an error. -/
def Fault.severity : Fault → Severity
  | .malformed cause => cause.severity
  | .unknownSpace _ | .unknownTag _ | .unmatched | .unknownAttribute _ => .warning
  | _ => .error

/-- A fault and its place, which is absent for faults of the whole document. -/
structure Finding where
  span : Option Span
  fault : Fault
deriving DecidableEq, Repr

namespace Validation

/-- What is wrong with the text of a value: the check of the rule decides, or
else the pattern, or else the members. -/
def contentFault? (rule : ValueRule) (v : Value) : Option Fault :=
  match rule.check, rule.pattern, rule.members with
  | some check, _, _ => (check v).map .rejected
  | none, some p, _ => if p.pattern.accepts v.text.toList then none else some .unmatched
  | none, none, some members =>
    if rule.openEnded || members.contains v.text then none else some .notMember
  | none, none, none => none

/-- What is wrong with a value: its kind, then its content. -/
def checkValue (rule : ValueRule) (v : Value) : List Finding :=
  (if v.kind = rule.kind then [] else [⟨some v.span, .wrongKind rule.kind⟩]) ++
    (contentFault? rule v).toList.map (⟨some v.span, ·⟩)

/-- What is wrong with the number of values of a tag. -/
def checkCount (node : Node) (t : Tag) : List Finding :=
  let few := node.minValues.filter (t.values.length < ·)
  let many := node.maxValues.filter (· < t.values.length)
  if t.span.isNone then []
  else few.toList.map (⟨t.span, .tooFewValues ·⟩) ++ many.toList.map (⟨t.span, .tooManyValues ·⟩)

/-- What is wrong with the values of a tag. A tag without a rule for values may
have any. -/
def checkValues (node : Node) (t : Tag) : List Finding :=
  match node.values with
  | none => []
  | some rule => t.values.flatMap (checkValue rule) ++ checkCount node t

/-- What is wrong with an attribute. -/
def checkAttribute (node : Node) (a : Attribute) : List Finding :=
  match node.attributes.get? a.qualifiedName with
  | some rule => checkValue rule.values a.value
  | none => [⟨some a.nameSpan, .unknownAttribute a.qualifiedName⟩]

/-- What is wrong with a tag itself, apart from its children. -/
def checkOwn (node : Node) (t : Tag) : List Finding :=
  (if node.needsChildren && t.children.isEmpty then [⟨t.span, .missingChildren⟩] else []) ++
    checkValues node t ++ t.attributes.flatMap (checkAttribute node)

/-- Finds the node of a child tag. Without one the answer is the reason: its
namespace is not listed, or its name is not among the children of its parent. -/
def childNode (s : Schema) (nodes : Option (Keyed Node)) (t : Tag) : Except Fault Node :=
  let space := t.space.getD ""
  if space ≠ "" ∧ space ∉ s.spaces then .error (.unknownSpace space)
  else match nodes.bind (·.get? t.name) with
    | none => .error (.unknownTag t.qualifiedName)
    | some node => .ok node

/-- A tag whose node declares a namespace must be written with it; other tags
may have any listed one. -/
def checkSpace (node : Node) (t : Tag) : List Finding :=
  if node.space.isSome ∧ node.spaceName ≠ t.space.getD "" then [⟨t.span, .wrongSpace⟩] else []

mutual

/-- What is wrong with a tag and all below it. -/
def checkTag (s : Schema) (node : Node) : Tag → List Finding
  | t@⟨_, _, _, _, _, _, children⟩ =>
    checkChildren s (s.childrenOf node) children ++ checkOwn node t

/-- What is wrong with tags whose nodes are to be among `nodes`. Below a tag
without a node nothing is checked. -/
def checkChildren (s : Schema) (nodes : Option (Keyed Node)) : List Tag → List Finding
  | [] => []
  | t :: ts =>
    (match childNode s nodes t with
      | .error fault => [⟨some t.nameSpan, fault⟩]
      | .ok node => checkSpace node t ++ checkTag s node t) ++
      checkChildren s nodes ts

end

/-- The required tags that are missing. -/
def checkRequired (s : Schema) (root : Tag) : List Finding :=
  (s.required.filter fun name => !root.plainChildren.has name).map (⟨none, .missingTag ·⟩)

end Validation

open Validation in
/-- All that is wrong with a document. -/
def validate (s : Schema) (d : Document) : List Finding :=
  (d.problems.map fun p => ⟨some p.span, .malformed p.cause⟩) ++
    checkTag s s.root d.root ++ checkRequired s d.root

end PackageRecipe
