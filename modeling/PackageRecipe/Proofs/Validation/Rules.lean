import Mathlib
import PackageRecipe.Validation
import PackageRecipe.Proofs.Keyed
import PackageRecipe.Proofs.Sdl.Lineage

/-!
# The rules of validation

What is found wrong with a document is what the rules find at the tags that the schema
reaches.

## Main Definitions

* `Schema.children?` — the tags that may stand below a node
* `Schema.nodeAt?` — the node that the tags from the top of a tree lead to
* `Schema.reached` — the tags of a tree that have a node, each with it
* `Validation.findings` — what the rules find at one tag with a node
* `Validation.missingTags` — what the rule for required tags finds

## Design Notes

Each rule is a definition of its own and says by itself when it applies, so that no rule
hides behind the order of the others.  The order in which a validator walks the tree is
left out as well: a tag is reached by its lineage alone, and the findings are compared as
multisets.  The rules for a child are those of the tag it stands in, since a child without
a node is not reached.
-/

namespace PackageRecipe

open PackageRecipe.Sdl PackageRecipe.Text

/-! ## The tags that a schema reaches -/

namespace Schema

variable (s : Schema)

/-- The namespace of a tag is one that tags may be written with. -/
def Allows (t : Tag) : Prop :=
  t.step.space = "" ∨ t.step.space ∈ s.spaces

instance (t : Tag) : Decidable (s.Allows t) :=
  inferInstanceAs (Decidable (_ ∨ _))

/-- The tags that may stand below a node: its own, or those of the root if it takes these and the
root has any of its own. -/
def children? (n : Node) : Option (Keyed Node) :=
  match n.content, s.root.content with
  | .own tags, _ => some tags
  | .root, .own tags => some tags
  | .root, .root => none
  | .root, .none => none
  | .none, _ => none

theorem childrenOf_eq (n : Node) : s.childrenOf n = s.children? n := by
  unfold childrenOf children?
  cases n.content <;> cases s.root.content <;> rfl

/-- The node that the name of a tag has among the children of its parent. -/
def named? (n : Node) (t : Tag) : Option Node :=
  (s.children? n).bind (·.get? t.name)

/-- The node of a tag below a tag with a node. -/
def below? (n : Node) (t : Tag) : Option Node :=
  if s.Allows t then s.named? n t else none

/-- The node that tags lead to, each of which stands in the one before. -/
def nodeAt? (line : List Tag) : Option Node :=
  line.foldlM s.below? s.root

/-- The tags of a tree that have a node if its top has the given one, with their nodes. -/
def reached (n : Node) (top : Tag) : List (Node × Tag) :=
  ([] :: Tag.lineages top.children).filterMap fun line =>
    (line.foldlM s.below? n).map (·, line.getLastD top)

end Schema

/-! ## The rules -/

instance (p : Pattern) (cs : List Char) : Decidable (p.Matches cs) :=
  decidable_of_iff _ (p.accepts_iff_matches cs)

namespace Validation

/-- What a rule finds: the finding, if it applies. -/
def reportIf (applies : Prop) [Decidable applies] (f : Finding) : List Finding :=
  if applies then [f] else []

@[simp] theorem mem_reportIf {p : Prop} [Decidable p] {f g : Finding} :
    f ∈ reportIf p g ↔ p ∧ f = g := by
  rw [reportIf, List.mem_ite_nil_right, List.mem_singleton]

theorem reportIf_eq_nil_iff {p : Prop} [Decidable p] {f : Finding} : reportIf p f = [] ↔ ¬ p := by
  simp [reportIf]

section Children

variable (s : Schema) (n : Node) (c : Tag)

/-- A child is written with a namespace that is listed. -/
def unlistedSpace : List Finding :=
  reportIf (¬ s.Allows c) ⟨some c.nameSpan, .unknownSpace c.step.space⟩

/-- The schema knows the name of a child.  Of a child with a namespace that is not listed
only the namespace is reported. -/
def unknownName : List Finding :=
  reportIf (s.Allows c ∧ (s.named? n c).isNone) ⟨some c.nameSpan, .unknownTag c.qualifiedName⟩

/-- A child is written with the namespace that its node declares. -/
def foreignSpace : List Finding :=
  reportIf (∃ m ∈ s.below? n c, ∃ space ∈ m.space, space ≠ c.step.space) ⟨c.span, .wrongSpace⟩

/-- What the rules find at a child of a tag. -/
def childFindings : List Finding :=
  unlistedSpace s c ++ unknownName s n c ++ foreignSpace s n c

end Children

section Values

variable (rule : ValueRule) (v : Value)

/-- A value has the kind of its rule. -/
def wrongKind : List Finding :=
  reportIf (v.kind ≠ rule.kind) ⟨some v.span, .wrongKind rule.kind⟩

/-- The check of the rule has no objection. -/
def rejected : List Finding :=
  (rule.check.bind (· v)).toList.map (⟨some v.span, .rejected ·⟩)

/-- Without a check, the text is one of the pattern. -/
def unmatched : List Finding :=
  reportIf (rule.check.isNone ∧ ∃ p ∈ rule.pattern, ¬ p.pattern.Matches v.text.toList)
    ⟨some v.span, .unmatched⟩

/-- Without a check and a pattern, the text is one of the members. -/
def notMember : List Finding :=
  reportIf (rule.check.isNone ∧ rule.pattern.isNone ∧
      ∃ members ∈ rule.members, ¬ rule.openEnded ∧ v.text ∉ members)
    ⟨some v.span, .notMember⟩

/-- What the rules find in the content of a value. -/
def contentFindings : List Finding :=
  rejected rule v ++ unmatched rule v ++ notMember rule v

/-- What the rules find at a value. -/
def valueFindings : List Finding :=
  wrongKind rule v ++ contentFindings rule v

end Values

section Tags

variable (s : Schema) (n : Node) (t : Tag)

/-- A tag that needs children has some. -/
def emptyBlock : List Finding :=
  reportIf (n.needsChildren ∧ t.children = []) ⟨t.span, .missingChildren⟩

/-- A tag with a place has enough values, if there is a rule for values. -/
def tooFew : List Finding :=
  n.minValues.toList.flatMap fun least =>
    reportIf (n.values.isSome ∧ t.span.isSome ∧ t.values.length < least)
      ⟨t.span, .tooFewValues least⟩

/-- A tag with a place has not too many values, if there is a rule for values. -/
def tooMany : List Finding :=
  n.maxValues.toList.flatMap fun most =>
    reportIf (n.values.isSome ∧ t.span.isSome ∧ most < t.values.length)
      ⟨t.span, .tooManyValues most⟩

/-- The schema knows the qualified name of an attribute. -/
def unknownAttribute (a : Attribute) : List Finding :=
  reportIf (n.attributes.get? a.qualifiedName).isNone
    ⟨some a.nameSpan, .unknownAttribute a.qualifiedName⟩

/-- What the rules find at the value of an attribute that the schema knows. -/
def attributeFindings (a : Attribute) : List Finding :=
  (n.attributes.get? a.qualifiedName).toList.flatMap fun rule => valueFindings rule.values a.value

/-- What the rules find at a tag apart from its children. -/
def ownFindings : List Finding :=
  emptyBlock n t ++
    (n.values.toList.flatMap fun rule => t.values.flatMap (valueFindings rule)) ++
    tooFew n t ++ tooMany n t ++
    t.attributes.flatMap fun a => unknownAttribute n a ++ attributeFindings n a

/-- What the rules find at a tag. -/
def findings : List Finding :=
  t.children.flatMap (childFindings s n) ++ ownFindings n t

/-- Each required tag stands at the root, without a namespace. -/
def missingTags (root : Tag) : List Finding :=
  (s.required.filter fun name => ∀ c ∈ root.children, c.space = none → c.name ≠ name).map
    (⟨none, .missingTag ·⟩)

end Tags

end Validation

/-! ## How tags are reached -/

namespace Schema

theorem mem_reached_iff {s : Schema} {n m : Node} {top t : Tag} :
    (m, t) ∈ s.reached n top ↔ ∃ line ∈ [] :: Tag.lineages top.children,
      line.foldlM s.below? n = some m ∧ line.getLastD top = t := by
  simp only [reached, List.mem_filterMap, Option.map_eq_some_iff, Prod.mk.injEq, ← and_assoc,
    exists_and_right, exists_eq_right]

/-- A tag with a node is reached, and all that is reached from its children. -/
theorem reached_eq (s : Schema) (n : Node) (t : Tag) :
    s.reached n t =
      (n, t) :: t.children.flatMap fun c => (s.below? n c).toList.flatMap (s.reached · c) := by
  have child (c : Tag) : ((([] :: Tag.lineages c.children).map (c :: ·)).filterMap fun line =>
      (line.foldlM s.below? n).map (·, line.getLastD t)) =
        (s.below? n c).toList.flatMap (s.reached · c) := by
    rw [List.filterMap_map]
    cases node : s.below? n c with
    | none =>
        refine List.filterMap_eq_nil_iff.2 fun line _ => ?_
        simp [node]
    | some m =>
        simp only [Function.comp_def, List.foldlM_cons, node, Option.bind_eq_bind,
          Option.bind_some, List.getLastD_cons, Option.toList_some, List.flatMap_singleton]
        rfl
  rw [reached, List.filterMap_cons, Tag.lineages_eq_flatMap, List.filterMap_flatMap]
  simp only [child]
  rfl

end Schema

/-! ## The findings of a validator -/

namespace Validation

variable {s : Schema} {n : Node}

theorem contentFindings_eq (rule : ValueRule) (v : Value) :
    contentFindings rule v = (contentFault? rule v).toList.map (⟨some v.span, ·⟩) := by
  unfold contentFindings rejected unmatched notMember contentFault? reportIf
  cases checked : rule.check with
  | some check => cases found : check v <;> simp [found]
  | none =>
      cases rule.pattern with
      | some p =>
          by_cases accepted : p.pattern.accepts v.text.toList <;>
            simp [← Pattern.accepts_iff_matches, accepted]
      | none =>
          cases rule.members with
          | none => simp
          | some members =>
              cases rule.openEnded <;> by_cases member : v.text ∈ members <;> simp [member]

/-- At most one of the rules for the content of a value finds something. -/
theorem length_contentFindings_le (rule : ValueRule) (v : Value) :
    (contentFindings rule v).length ≤ 1 := by
  rw [contentFindings_eq, List.length_map]
  exact Option.length_toList_le

theorem checkValue_eq : checkValue = valueFindings := by
  funext rule v
  rw [checkValue, valueFindings, contentFindings_eq, wrongKind, reportIf, ite_not]

theorem map_filter_toList (o : Option Nat) (p : Nat → Prop) [DecidablePred p] (f : Nat → Finding) :
    (o.filter (p ·)).toList.map f = o.toList.flatMap fun k => reportIf (p k) (f k) := by
  cases o with
  | none => rfl
  | some k => by_cases applies : p k <;> simp [reportIf, applies]

theorem checkValues_eq (n : Node) (t : Tag) :
    checkValues n t = (n.values.toList.flatMap fun rule => t.values.flatMap (valueFindings rule)) ++
      (tooFew n t ++ tooMany n t) := by
  cases valued : n.values with
  | none => simp [checkValues, tooFew, tooMany, reportIf, valued]
  | some rule =>
      have count : checkCount n t = tooFew n t ++ tooMany n t := by
        cases placed : t.span with
        | none => simp [checkCount, tooFew, tooMany, reportIf, placed]
        | some place =>
            simp [checkCount, tooFew, tooMany, placed, valued, ← map_filter_toList]
      simp [checkValues, valued, count, checkValue_eq]

theorem checkAttribute_eq (n : Node) :
    checkAttribute n = fun a => unknownAttribute n a ++ attributeFindings n a := by
  funext a
  unfold checkAttribute unknownAttribute attributeFindings reportIf
  cases n.attributes.get? a.qualifiedName with
  | none => rfl
  | some rule => simp [checkValue_eq]

theorem checkOwn_eq (n : Node) (t : Tag) : checkOwn n t = ownFindings n t := by
  have empty : emptyBlock n t =
      if n.needsChildren && t.children.isEmpty then [⟨t.span, .missingChildren⟩] else [] := by
    simp [emptyBlock, reportIf]
  rw [checkOwn, ownFindings, empty, checkAttribute_eq, checkValues_eq]
  simp only [List.append_assoc]

/-- The node of a child, or the reason why it has none. -/
theorem childNode_eq (s : Schema) (n : Node) (c : Tag) :
    childNode s (s.childrenOf n) c =
      if s.Allows c then
        match s.named? n c with
        | none => .error (.unknownTag c.qualifiedName)
        | some m => .ok m
      else .error (.unknownSpace c.step.space) := by
  have refused : ¬ s.Allows c ↔ c.step.space ≠ "" ∧ c.step.space ∉ s.spaces := not_or
  rw [← ite_not, if_congr refused rfl rfl, Schema.childrenOf_eq]
  rfl

theorem checkSpace_eq {s : Schema} {n m : Node} {c : Tag} (below : s.below? n c = some m) :
    checkSpace m c = foreignSpace s n c := by
  have applies : m.space.isSome ∧ m.spaceName ≠ c.space.getD "" ↔
      ∃ m' ∈ s.below? n c, ∃ space ∈ m'.space, space ≠ c.step.space := by
    rw [below]
    cases space : m.space <;> simp [Node.spaceName, space, Tag.step]
  exact if_congr applies rfl rfl

/-- What a validator finds at a tag: first below it, then at the tag itself. -/
theorem checkTag_eq (s : Schema) (n : Node) (t : Tag) :
    checkTag s n t = checkChildren s (s.childrenOf n) t.children ++ ownFindings n t := by
  cases t
  rw [checkTag, checkOwn_eq]

/-- What a validator finds at a child, below it and at the children behind it. -/
theorem checkChildren_cons (s : Schema) (n : Node) (c : Tag) (cs : List Tag) :
    checkChildren s (s.childrenOf n) (c :: cs) =
      childFindings s n c ++ (s.below? n c).toList.flatMap (checkTag s · c) ++
        checkChildren s (s.childrenOf n) cs := by
  rw [checkChildren, childNode_eq]
  congr 1
  by_cases allowed : s.Allows c
  · cases named : s.named? n c with
    | none =>
        have below : s.below? n c = none := by rw [Schema.below?, if_pos allowed, named]
        simp [childFindings, unlistedSpace, unknownName, foreignSpace, reportIf, allowed, named,
          below]
    | some m =>
        have below : s.below? n c = some m := by rw [Schema.below?, if_pos allowed, named]
        simp [childFindings, unlistedSpace, unknownName, ← checkSpace_eq below, reportIf, allowed,
          named, below]
  · have below : s.below? n c = none := if_neg allowed
    simp [childFindings, unlistedSpace, unknownName, foreignSpace, reportIf, allowed, below]

mutual

/-- **A validator finds at a tag and below it what the rules find** at the tags that the
schema reaches from it. -/
theorem checkTag_perm (s : Schema) (n : Node) : ∀ t : Tag,
    (checkTag s n t).Perm ((s.reached n t).flatMap fun p => findings s p.1 p.2)
  | ⟨space, name, nameSpan, span, values, attributes, children⟩ => by
      have below := checkChildren_perm s n children
      rw [checkTag, checkOwn_eq, Schema.reached_eq, List.flatMap_cons, findings, List.flatMap_assoc]
      simp only [List.flatMap_assoc]
      refine (below.append_right _).trans ?_
      rw [List.append_assoc, List.append_assoc]
      exact List.perm_append_comm.append_left _

theorem checkChildren_perm (s : Schema) (n : Node) : ∀ cs : List Tag,
    (checkChildren s (s.childrenOf n) cs).Perm (cs.flatMap (childFindings s n) ++
      cs.flatMap fun c => (s.below? n c).toList.flatMap fun m =>
        (s.reached m c).flatMap fun p => findings s p.1 p.2)
  | [] => by simp [checkChildren]
  | c :: cs => by
      have behind := checkChildren_perm s n cs
      have here : ((s.below? n c).toList.flatMap (checkTag s · c)).Perm
          ((s.below? n c).toList.flatMap fun m =>
            (s.reached m c).flatMap fun p => findings s p.1 p.2) :=
        .flatMap_left _ fun m _ => checkTag_perm s m c
      rw [checkChildren_cons, List.flatMap_cons, List.flatMap_cons, List.append_assoc,
        List.append_assoc]
      refine ((here.append behind).append_left _).trans (.append_left _ ?_)
      exact List.perm_append_comm_assoc _ _ _

end

end Validation

/-! ## Required tags -/

theorem Sdl.Tag.has_plainChildren {t : Tag} {name : String} :
    t.plainChildren.has name ↔ ∃ c ∈ t.children, c.space = none ∧ c.name = name := by
  rw [plainChildren, Keyed.has_group]
  constructor
  · rintro ⟨p, found, rfl⟩
    obtain ⟨c, plain, rfl⟩ := List.mem_map.1 found
    exact ⟨c, (List.mem_filter.1 plain).1, by simpa using (List.mem_filter.1 plain).2, rfl⟩
  · rintro ⟨c, child, plain, rfl⟩
    exact ⟨(c.name, c), List.mem_map_of_mem (List.mem_filter.2 ⟨child, by simp [plain]⟩), rfl⟩

theorem Validation.checkRequired_eq (s : Schema) (root : Tag) :
    checkRequired s root = missingTags s root := by
  rw [checkRequired, missingTags]
  congr 1
  refine List.filter_congr fun name _ => ?_
  rw [Bool.eq_iff_iff, decide_eq_true_iff, Bool.not_eq_true', Bool.eq_false_iff, ne_eq,
    Tag.has_plainChildren]
  simp

/-- What a finding is: a problem of the text, what the rules find at a tag, or a missing tag. -/
theorem Validation.mem_validate_iff {s : Schema} {d : Document} {f : Finding} :
    f ∈ validate s d ↔ (∃ p ∈ d.problems, f = ⟨some p.span, .malformed p.cause⟩) ∨
      (∃ p ∈ s.reached s.root d.root, f ∈ findings s p.1 p.2) ∨
        ∃ name ∈ s.required, f = ⟨none, .missingTag name⟩ ∧
          ∀ c ∈ d.root.children, c.space = none → c.name ≠ name := by
  rw [validate, checkRequired_eq, List.mem_append, List.mem_append, or_assoc,
    (checkTag_perm s s.root d.root).mem_iff, List.mem_flatMap]
  simp only [missingTags, List.mem_map, List.mem_filter, decide_eq_true_eq, eq_comm (a := f)]
  refine or_congr Iff.rfl (or_congr Iff.rfl (exists_congr fun name => ?_))
  rw [and_assoc, and_comm (b := _ = f)]

/-- **Validation finds what the rules find.**  The findings are the problems of the text,
what the rules find at each tag that the schema reaches, and the required tags that are
missing, each as often as it occurs there. -/
theorem validate_perm (s : Schema) (d : Document) :
    (validate s d).Perm ((d.problems.map fun p => ⟨some p.span, .malformed p.cause⟩) ++
      ((s.reached s.root d.root).flatMap fun p => Validation.findings s p.1 p.2) ++
      Validation.missingTags s d.root) := by
  rw [validate, Validation.checkRequired_eq]
  exact ((Validation.checkTag_perm s s.root d.root).append_left _).append_right _

end PackageRecipe
