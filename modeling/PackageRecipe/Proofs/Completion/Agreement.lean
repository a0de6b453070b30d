import Mathlib
import PackageRecipe.Completion
import PackageRecipe.Proofs.Sdl.Origin
import PackageRecipe.Proofs.Validation.Resolution

/-!
# Completion and validation

What is offered at a cursor is what a validator accepts there.

## Main Results

* `Sdl.qualify_inj` — a name and its namespace are known by what is written for them
* `Completion.offers_accepted` — what is offered at a path is what is accepted there

## Design Notes

A tag is offered as it is written, and a validator compares its namespace and its name apart.
The two agree because a colon stands in neither, so that what is written can be taken apart
again (`Sdl.qualify_inj`).  What is unknown of an attribute is found at the place of its name,
which is the place of no other attribute (`Document.attribute_unique`).
-/

namespace PackageRecipe

open PackageRecipe.Sdl PackageRecipe.Text PackageRecipe.Editor

/-! ## Written names -/

namespace Sdl

theorem toList_qualify (q : QualifiedName) : (qualify (some q.space) q.name).toList =
    if q.space = "" then q.name.toList else q.space.toList ++ ':' :: q.name.toList := by
  by_cases empty : q.space = ""
  · simp [qualify, empty]
  · simp [qualify, empty]

theorem qualify_getD (space : Option String) (name : String) :
    qualify (some (space.getD "")) name = qualify space name := by
  cases space <;> simp [qualify]

/-- What is written for a name and its namespace can be taken apart. -/
theorem qualify_inj {p q : QualifiedName} (left : p.Spellable) (right : q.Spellable) :
    qualify (some p.space) p.name = qualify (some q.space) q.name ↔ p = q := by
  constructor
  · intro same
    replace same := congrArg String.toList same
    rw [toList_qualify, toList_qualify] at same
    have ext (spaces : p.space = q.space) (names : p.name.toList = q.name.toList) : p = q := by
      cases p
      cases q
      rw [QualifiedName.mk.injEq]
      exact ⟨spaces, String.toList_inj.1 names⟩
    split_ifs at same with none none'
    · exact ext (none.trans none'.symm) same
    · exact absurd (by simp [same]) left.1
    · exact absurd (by simp [← same]) right.1
    · obtain ⟨spaces, -, names⟩ := (List.append_cons_inj_of_notMem left.2 left.1).1 same
      exact ext (String.toList_inj.1 spaces) names
  · rintro rfl
    rfl

end Sdl

/-! ## Tags -/

namespace Completion

variable {s : Schema} {n : Node}

/-- The tags that are offered below a node are those that a path leads to. -/
theorem exists_tagItem_iff (spellable : s.Spellable) (inside : s.IsNode n) {q : QualifiedName}
    (plain : q.Spellable) :
    (∃ i ∈ tagItems s n, i.insertText = some (qualify (some q.space) q.name)) ↔
      (s.step? n q).isSome := by
  have child {name : String} {m : Node} : qualify m.space name = qualify (some m.spaceName) name :=
    (qualify_getD m.space name).symm
  simp only [tagItems, List.mem_map, Prod.exists, Option.isSome_iff_exists, Schema.step?_eq_some]
  constructor
  · rintro ⟨i, ⟨name, m, member, rfl⟩, written⟩
    cases children : s.childrenOf n with
    | none => simp [children] at member
    | some tags =>
        rw [children, Option.getD_some] at member
        have known := spellable.plain n tags inside children _ member
        obtain rfl := (qualify_inj known plain).1 (child.symm.trans (Option.some.inj written))
        exact ⟨m, tags, rfl, ((spellable.sorted n tags inside children).get?_eq_some_iff).2 member,
          rfl⟩
  · rintro ⟨m, tags, children, named, same⟩
    refine ⟨_, ⟨q.name, m, ?_, rfl⟩, ?_⟩
    · rw [children]
      exact Keyed.mem_of_get? named
    · rw [child, same]

end Completion

/-! ## Attributes -/

namespace Validation

variable {s : Schema} {n : Node} {text : List Char} {line : List Tag} {t : Tag} {a : Attribute}

/-- A finding that an attribute is unknown comes from the rule for the names of attributes. -/
theorem unknownAttribute_mem_findings_iff {place : Span} {name : String} :
    ⟨some place, .unknownAttribute name⟩ ∈ findings s n t ↔
      ∃ a ∈ t.attributes, (n.attributes.get? a.qualifiedName).isNone ∧ place = a.nameSpan ∧
        name = a.qualifiedName := by
  simp [findings, childFindings, unlistedSpace, unknownName, foreignSpace, ownFindings, emptyBlock,
    valueFindings, contentFindings, wrongKind, rejected, unmatched, notMember, tooFew, tooMany,
    unknownAttribute, attributeFindings]

/-- An attribute of a tag with a node is unknown if the node does not have it. -/
theorem unknownAttribute_mem_validate_iff
    (member : line ++ [t] ∈ Tag.lineages (Document.ofText text).root.children)
    (node : s.nodeAt? (line ++ [t]) = some n) (inside : a ∈ t.attributes) {name : String} :
    ⟨some a.nameSpan, .unknownAttribute name⟩ ∈ validate s (Document.ofText text) ↔
      (n.attributes.get? a.qualifiedName).isNone ∧ name = a.qualifiedName := by
  have known := Tag.mem_preorder_of_lineage member List.mem_concat_self
  rw [mem_validate_iff]
  constructor
  · rintro (⟨p, -, same⟩ | ⟨⟨n', t'⟩, reached, found⟩ | ⟨name, -, same, -⟩)
    · simp at same
    · obtain ⟨a', inside', missing, same, rfl⟩ := unknownAttribute_mem_findings_iff.1 found
      obtain ⟨line', isLine, node', rfl⟩ := Schema.mem_reached_iff.1 reached
      rcases List.eq_nil_or_concat line' with rfl | ⟨front, u, rfl⟩
      · simp [Document.ofText, Tag.root] at inside'
      · rw [List.concat_eq_append] at isLine node' inside'
        rw [List.getLastD_concat] at inside'
        have member' := (List.mem_cons.1 isLine).resolve_left (by simp)
        have known' := Tag.mem_preorder_of_lineage member' List.mem_concat_self
        obtain ⟨rfl, rfl⟩ := Document.attribute_unique known known' inside inside' same
        obtain ⟨rfl, -⟩ := List.append_inj' (Document.lineage_unique member' member rfl) rfl
        obtain rfl : n' = n := Option.some.inj (node'.symm.trans node)
        exact ⟨missing, rfl⟩
    · simp at same
  · rintro ⟨missing, rfl⟩
    have reached := Schema.mem_reached_iff.2
      ⟨line ++ [t], List.mem_cons_of_mem _ member, node, List.getLastD_concat⟩
    refine .inr (.inl ⟨_, reached, ?_⟩)
    exact unknownAttribute_mem_findings_iff.2 ⟨a, inside, missing, rfl, rfl⟩

/-- A tag is not misplaced if its names and those of the tags around it lead to a node. -/
theorem not_misplaces_of_resolve? (listed : s.Listed)
    (member : line ++ [t] ∈ Tag.lineages (Document.ofText text).root.children)
    (known : (s.resolve? ((line ++ [t]).map Tag.step)).isSome) :
    ∀ f ∈ validate s (Document.ofText text), ¬ Misplaces t f := by
  obtain ⟨m, known⟩ := Option.isSome_iff_exists.1 known
  obtain ⟨node, along⟩ := (Schema.foldlM_step?_eq_some_iff listed .root).1 known
  have quiet := forall_not_misplaces_iff (s := s) [] (List.mem_cons_of_mem _ member) rfl
  refine quiet.2 ⟨⟨m, node⟩, fun before c after m' spelled found space declared => ?_⟩ t
    List.mem_concat_self
  rw [← along before c after m' spelled found, Node.spaceName, declared, Option.getD_some]

end Validation

namespace Completion

theorem exists_attributeItem_iff {n : Node} {name : String} :
    (∃ i ∈ attributeItems n, i.label = name) ↔ (n.attributes.get? name).isSome := by
  rw [← Keyed.has, Keyed.has_iff, attributeItems]
  simp only [List.mem_map]
  constructor
  · rintro ⟨i, ⟨p, member, rfl⟩, rfl⟩
    exact ⟨p, member, rfl⟩
  · rintro ⟨p, member, rfl⟩
    exact ⟨_, ⟨p, member, rfl⟩, rfl⟩

/-! ## Values -/

variable {m : Type → Type} [Monad m]

theorem checkValue_of_mem_valueItems (index : PackageIndex m) (settings : Settings)
    (cursor : Cursor) {rule : ValueRule} (own : rule.source = none) (free : rule.pattern = none)
    (unchecked : rule.check = none) :
    ∃ items, valueItems index settings cursor rule = pure items ∧
      ∀ i ∈ items, ∀ v : Value, v.kind = rule.kind → v.text = i.insertText.getD i.label →
        Validation.checkValue rule v = [] := by
  have accepted {v : Value} (kind : v.kind = rule.kind)
      (known : ∀ members ∈ rule.members, v.text ∈ members) :
      Validation.checkValue rule v = [] := by
    rw [Validation.checkValue, if_pos kind, Validation.contentFault?, unchecked, free]
    cases members : rule.members with
    | none => rfl
    | some texts => simp [known texts members]
  rw [valueItems, own]
  cases members : rule.members with
  | none =>
      have all {v : Value} (kind : v.kind = rule.kind) : Validation.checkValue rule v = [] :=
        accepted kind (by simp [members])
      by_cases boolean : rule.kind = .boolean
      · exact ⟨_, if_pos boolean, fun _ _ v kind _ => all kind⟩
      · exact ⟨[], if_neg boolean, by simp⟩
  | some texts =>
      refine ⟨_, rfl, fun i member v kind text => accepted kind fun texts' known => ?_⟩
      obtain rfl : texts = texts' := Option.some.inj (members.symm.trans known)
      obtain ⟨text', inside, rfl⟩ := List.mem_map.1 member
      rw [text]
      exact inside

/-! ## Completion -/

open Validation in
/-- **What is offered is what is accepted**, at each path that leads to a node of a schema.
The tags that are offered are those that the path goes on to, and a validator finds none of
them misplaced.  The attributes that are offered are those that a validator knows there.  And
what is offered for a value, from the members of its rule or for a truth value, passes the
rule, unless the rule has a pattern or a check of its own. -/
theorem offers_accepted {s : Schema} (listed : s.Listed) (spellable : s.Spellable)
    {path : List QualifiedName} {node : Node} (known : s.resolve? path = some node)
    (index : PackageIndex m) (settings : Settings) {cursor : Cursor} (there : cursor.path = path) :
    (cursor.kind = .block → ∃ items, complete s index settings cursor = pure items ∧
      ∀ q : QualifiedName, q.Spellable →
        ((∃ i ∈ items, i.insertText = some (qualify (some q.space) q.name)) ↔
          (s.resolve? (path ++ [q])).isSome) ∧
        ((s.resolve? (path ++ [q])).isSome → ∀ text line t,
          line ++ [t] ∈ Tag.lineages (Document.ofText text).root.children →
            (line ++ [t]).map Tag.step = path ++ [q] →
              ∀ f ∈ validate s (Document.ofText text), ¬ Misplaces t f)) ∧
    (cursor.kind = .attribute → ∃ items, complete s index settings cursor = pure items ∧
      ∀ text line t, line ++ [t] ∈ Tag.lineages (Document.ofText text).root.children →
        (line ++ [t]).map Tag.step = path → ∀ a ∈ t.attributes,
          ((∃ i ∈ items, i.label = a.qualifiedName) ↔ ∀ name,
            ⟨some a.nameSpan, .unknownAttribute name⟩ ∉ validate s (Document.ofText text))) ∧
    (cursor.kind = .value → ∀ rule, ruleAt? node cursor = some rule →
      rule.source = none → rule.pattern = none → rule.check = none →
        ∃ items, complete s index settings cursor = pure items ∧
          ∀ i ∈ items, ∀ v : Value, v.kind = rule.kind → v.text = i.insertText.getD i.label →
            checkValue rule v = []) := by
  subst there
  have goesOn (q : QualifiedName) : s.resolve? (cursor.path ++ [q]) = s.step? node q := by
    rw [Schema.resolve?] at known ⊢
    rw [List.foldlM_append, known]
    simp
  refine ⟨fun kind => ⟨tagItems s node, ?_, fun q plain => ⟨?_, ?_⟩⟩,
    fun kind => ⟨attributeItems node, ?_, ?_⟩, fun kind rule rules own free unchecked => ?_⟩
  · simp [complete, known, kind]
  · rw [goesOn]
    exact exists_tagItem_iff spellable (Schema.isNode_of_foldlM .root known) plain
  · intro found text line t member same
    rw [← same] at found
    exact not_misplaces_of_resolve? listed member found
  · simp [complete, known, kind]
  · intro text line t member same a inside
    rw [← same] at known
    obtain ⟨nodeAt, -⟩ := (Schema.foldlM_step?_eq_some_iff listed .root).1 known
    rw [exists_attributeItem_iff, Option.isSome_iff_ne_none]
    simp [unknownAttribute_mem_validate_iff member nodeAt inside]
  · have offered : complete s index settings cursor = valueItems index settings cursor rule := by
      simp [complete, known, kind, rules]
    rw [offered]
    exact checkValue_of_mem_valueItems index settings cursor own free unchecked

/-- In a sub-package a tag is offered with its namespace. -/
theorem offers_accepted_subPackage :
    let index : PackageIndex Id := ⟨none, fun _ => none, fun _ => none⟩
    let cursor : Cursor := { kind := .block, path := [.plain "subPackage"] }
    ∃ items, complete Schema.recipe index {} cursor = pure items ∧
      ∃ i ∈ items, i.insertText = some "x:ddoxFilterArgs" := by
  intro index cursor
  obtain ⟨node, known⟩ : ∃ node, Schema.recipe.resolve? [.plain "subPackage"] = some node :=
    Option.isSome_iff_exists.1 (by decide +kernel)
  have there : cursor.path = [.plain "subPackage"] := rfl
  obtain ⟨items, offered, agree⟩ :=
    (offers_accepted Schema.listed_recipe Schema.spellable_recipe known index {} there).1 rfl
  have plain : QualifiedName.Spellable ⟨"x", "ddoxFilterArgs"⟩ := ⟨by decide, by decide⟩
  exact ⟨items, offered, (agree _ plain).1.2 (by decide +kernel)⟩

end Completion

end PackageRecipe
