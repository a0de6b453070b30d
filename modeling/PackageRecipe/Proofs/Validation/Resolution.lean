import Mathlib
import PackageRecipe.Proofs.Schema.Nodes
import PackageRecipe.Proofs.Validation.Rules

/-!
# Lookup and validation

A path of names leads through the schema to a node (`Schema.resolve?`), and so does a
validator on its way down a tree.  The two agree but for namespaces: a validator lets a tag
have any listed namespace if its node declares none, and a path has to name the declared
one.

## Main Definitions

* `Schema.Along` — a property of the tags that lead down a tree and of their nodes
* `Validation.Misplaces` — the findings that say that a tag may not stand where it does

## Design Notes

A finding does not name the tag that it is found at, only a place.  It belongs to the tag that
begins there because no two tags of a text begin at the same place
(`Document.lineage_unique`).  So what is found on the way down is known tag by tag
(`exists_misplaces_iff`), and both walks are folds over the same tags.  Findings are told apart
by their faults and not by their wording, which a check of the schema may give to any value.
-/

namespace PackageRecipe

open PackageRecipe.Sdl PackageRecipe.Text

namespace Schema

/-- A property of each of the tags that lead down a tree from a node and of its own node. -/
def Along (s : Schema) (P : Node → Tag → Prop) (n : Node) (line : List Tag) : Prop :=
  ∀ before c after m, line = before ++ c :: after →
    (before ++ [c]).foldlM s.below? n = some m → P m c

variable {s : Schema} {P Q : Node → Tag → Prop} {n m : Node} {c : Tag} {line : List Tag}

theorem along_nil : s.Along P n [] := by
  intro before c after m empty
  simp at empty

theorem along_cons :
    s.Along P n (c :: line) ↔ ∀ m, s.below? n c = some m → P m c ∧ s.Along P m line := by
  constructor
  · intro along m node
    refine ⟨along [] c line m rfl (by simp [node]), ?_⟩
    intro before d after m' spelled found
    exact along (c :: before) d after m' (by rw [spelled]; rfl) (by simpa [node] using found)
  · intro each before d after m' spelled found
    cases before with
    | nil =>
        obtain ⟨rfl, rfl⟩ := List.cons.inj spelled
        exact (each m' (by simpa using found)).1
    | cons e before =>
        obtain ⟨rfl, rfl⟩ := List.cons.inj spelled
        rw [List.cons_append, List.foldlM_cons] at found
        obtain ⟨m, node, found⟩ := Option.bind_eq_some_iff.1 found
        exact (each m node).2 before d after m' rfl found

theorem along_cons_of_below? (below : s.below? n c = some m) :
    s.Along P n (c :: line) ↔ P m c ∧ s.Along P m line := by
  simp [along_cons, below]

/-- A property of the tags on the way may be split in two. -/
theorem along_and_iff {R : Node → Tag → Prop} (each : ∀ m, ∀ c ∈ line, R m c ↔ P m c ∧ Q m c) :
    s.Along R n line ↔ s.Along P n line ∧ s.Along Q n line := by
  induction line generalizing n with
  | nil => simp [along_nil]
  | cons c line ih =>
      have here (m : Node) := each m c List.mem_cons_self
      have behind (m : Node) := ih (n := m) fun m' d inside =>
        each m' d (List.mem_cons_of_mem _ inside)
      simp only [along_cons, here, behind, ← forall_and, and_and_and_comm]

/-- A tag that is named among the children of a node is one of them. -/
theorem exists_of_named? (named : s.named? n c = some m) :
    ∃ tags, s.childrenOf n = some tags ∧ (c.name, m) ∈ tags := by
  obtain ⟨tags, children, found⟩ := Option.bind_eq_some_iff.1 named
  exact ⟨tags, (s.childrenOf_eq n).trans children, Keyed.mem_of_get? found⟩

theorem nodeAt?_concat {before : List Tag} (node : s.nodeAt? before = some n)
    (below : s.below? n c = some m) : s.nodeAt? (before ++ [c]) = some m := by
  rw [nodeAt?] at node
  simp [nodeAt?, List.foldlM_append, node, below]

/-- A name leads to the node of a tag that is written with the namespace of the node. -/
theorem step?_eq_some_iff (listed : s.Listed) (inside : s.IsNode n) :
    s.step? n c.step = some m ↔ s.below? n c = some m ∧ m.spaceName = c.step.space := by
  have step : s.step? n c.step =
      (s.named? n c).bind fun m => if m.spaceName = c.step.space then some m else none := by
    rw [named?, Option.bind_assoc, ← childrenOf_eq]
    rfl
  rw [step, Option.bind_eq_some_iff]
  constructor
  · rintro ⟨m', named, found⟩
    obtain ⟨same, known⟩ := Option.ite_none_right_eq_some.1 found
    obtain rfl := Option.some.inj known
    obtain ⟨tags, children, child⟩ := exists_of_named? named
    -- The declared namespace is listed, so that a validator lets the tag pass.
    have allowed : s.Allows c := by
      rw [Allows, ← same]
      cases space : m'.space with
      | none => exact .inl (by simp [Node.spaceName, space])
      | some x =>
          have known := listed n tags inside children _ child x space
          exact .inr (by simpa [Node.spaceName, space] using known)
    exact ⟨by rw [below?, if_pos allowed, named], same⟩
  · rintro ⟨below, same⟩
    obtain ⟨-, named⟩ := Option.ite_none_right_eq_some.1 below
    exact ⟨m, named, if_pos same⟩

theorem IsNode.of_below? (inside : s.IsNode n) (below : s.below? n c = some m) : s.IsNode m := by
  obtain ⟨-, named⟩ := Option.ite_none_right_eq_some.1 below
  obtain ⟨tags, children, child⟩ := exists_of_named? named
  exact .child inside children child

/-- A path of names leads to the node of a tag if all tags on the way are written with the
namespaces of their nodes. -/
theorem foldlM_step?_eq_some_iff (listed : s.Listed) (inside : s.IsNode n) :
    (line.map Tag.step).foldlM s.step? n = some m ↔
      line.foldlM s.below? n = some m ∧ s.Along (fun m c => m.spaceName = c.step.space) n line := by
  induction line generalizing n with
  | nil => simp [along_nil]
  | cons c line ih =>
      rw [List.map_cons, List.foldlM_cons, List.foldlM_cons]
      simp only [Option.bind_eq_bind, Option.bind_eq_some_iff]
      constructor
      · rintro ⟨m', step, found⟩
        obtain ⟨below, same⟩ := (step?_eq_some_iff listed inside).1 step
        obtain ⟨found, along⟩ := (ih (inside.of_below? below)).1 found
        exact ⟨⟨m', below, found⟩, (along_cons_of_below? below).2 ⟨same, along⟩⟩
      · rintro ⟨⟨m', below, found⟩, along⟩
        obtain ⟨same, along⟩ := (along_cons_of_below? below).1 along
        exact ⟨m', (step?_eq_some_iff listed inside).2 ⟨below, same⟩,
          (ih (inside.of_below? below)).2 ⟨found, along⟩⟩

end Schema

namespace Validation

/-- A finding says that a tag may not stand where it does. -/
inductive Misplaces (c : Tag) : Finding → Prop where
  | unknownSpace (space : String) : Misplaces c ⟨some c.nameSpan, .unknownSpace space⟩
  | unknownTag (name : String) : Misplaces c ⟨some c.nameSpan, .unknownTag name⟩
  | wrongSpace : Misplaces c ⟨c.span, .wrongSpace⟩

theorem misplaces_of_mem_childFindings {s : Schema} {n : Node} {c : Tag} {f : Finding}
    (member : f ∈ childFindings s n c) : Misplaces c f := by
  simp only [childFindings, unlistedSpace, unknownName, foreignSpace, List.mem_append,
    mem_reportIf] at member
  rcases member with (⟨-, rfl⟩ | ⟨-, rfl⟩) | ⟨-, rfl⟩
  · exact .unknownSpace _
  · exact .unknownTag _
  · exact .wrongSpace

theorem not_misplaces_of_mem_ownFindings {n : Node} {t c : Tag} {f : Finding}
    (member : f ∈ ownFindings n t) : ¬ Misplaces c f := by
  intro misplaces
  cases misplaces <;>
    simp [ownFindings, emptyBlock, valueFindings, contentFindings, wrongKind, rejected, unmatched,
      notMember, tooFew, tooMany, unknownAttribute, attributeFindings] at member

/-- A tag is misplaced by findings that begin where it begins. -/
theorem Misplaces.start_eq {text : List Char} {c : Tag} {f : Finding} (misplaces : Misplaces c f)
    (inside : c ∈ Tag.preorder (Document.ofText text).root.children) :
    f.span.map Span.start = some c.nameSpan.start := by
  obtain ⟨stop, span⟩ := Document.span_of_mem inside
  cases misplaces <;> simp [span]

theorem Misplaces.fault_cases {c : Tag} {f : Finding} (misplaces : Misplaces c f) :
    (∃ space, f.fault = .unknownSpace space) ∨ (∃ name, f.fault = .unknownTag name) ∨
      f.fault = .wrongSpace := by
  cases misplaces <;> simp

/-- What misplaces a tag is found at the children of the tags that the schema reaches. -/
theorem Misplaces.mem_validate_iff {s : Schema} {d : Document} {c : Tag} {f : Finding}
    (misplaces : Misplaces c f) : f ∈ validate s d ↔
      ∃ p ∈ s.reached s.root d.root, ∃ c' ∈ p.2.children, f ∈ childFindings s p.1 c' := by
  rw [Validation.mem_validate_iff]
  constructor
  · rintro (⟨p, -, rfl⟩ | ⟨p, reached, member⟩ | ⟨name, -, rfl, -⟩)
    · simpa using misplaces.fault_cases
    · refine ⟨p, reached, List.mem_flatMap.1 ((List.mem_append.1 member).resolve_right ?_)⟩
      exact fun own => not_misplaces_of_mem_ownFindings own misplaces
    · simpa using misplaces.fault_cases
  · rintro ⟨p, reached, c', child, member⟩
    exact .inr (.inl ⟨p, reached, List.mem_append_left _ (List.mem_flatMap_of_mem child member)⟩)

section Text

variable {s : Schema} {text : List Char} {n : Node} {c : Tag} {before : List Tag}

/-- **What misplaces a tag** is what the rules find at it as a child of the tag in front. -/
theorem exists_misplaces_iff
    (member : before ++ [c] ∈ Tag.lineages (Document.ofText text).root.children)
    (node : s.nodeAt? before = some n) :
    (∃ f ∈ validate s (Document.ofText text), Misplaces c f) ↔ childFindings s n c ≠ [] := by
  have inside := Tag.mem_preorder_of_lineage member List.mem_concat_self
  constructor
  · rintro ⟨f, found, misplaces⟩
    obtain ⟨⟨n', t⟩, reached, c', child, foundAt⟩ := misplaces.mem_validate_iff.1 found
    obtain ⟨line, isLine, node', rfl⟩ := Schema.mem_reached_iff.1 reached
    have member' := Tag.concat_mem_lineages_iff.2 ⟨isLine, child⟩
    -- Both tags begin where the finding says, so they stand at the same place of the tree.
    have start := misplaces.start_eq inside
    rw [(misplaces_of_mem_childFindings foundAt).start_eq
      (Tag.mem_preorder_of_lineage member' List.mem_concat_self)] at start
    obtain ⟨rfl, same⟩ := List.append_inj' (Document.lineage_unique member' member
      (Option.some.inj start)) rfl
    obtain rfl := List.singleton_inj.1 same
    obtain rfl : n' = n := Option.some.inj (node'.symm.trans node)
    exact List.ne_nil_of_mem foundAt
  · intro nonempty
    obtain ⟨f, foundAt⟩ := List.exists_mem_of_ne_nil _ nonempty
    obtain ⟨isLine, child⟩ := Tag.concat_mem_lineages_iff.1 member
    have misplaces := misplaces_of_mem_childFindings foundAt
    have reached := Schema.mem_reached_iff.2 ⟨before, isLine, node, rfl⟩
    exact ⟨f, misplaces.mem_validate_iff.2 ⟨_, reached, c, child, foundAt⟩, misplaces⟩

theorem childFindings_eq_nil_iff : childFindings s n c = [] ↔
    ∃ m, s.below? n c = some m ∧ ∀ space ∈ m.space, space = c.step.space := by
  rw [childFindings, List.append_eq_nil_iff, List.append_eq_nil_iff]
  simp only [unlistedSpace, unknownName, foreignSpace, reportIf_eq_nil_iff]
  by_cases allowed : s.Allows c
  · cases named : s.named? n c <;> simp [Schema.below?, allowed, named]
  · simp [Schema.below?, allowed]

/-- No tag on the way down is misplaced exactly if all have nodes whose namespaces they are
written with.  The induction moves the tags one by one from `line` to `before`. -/
theorem forall_not_misplaces_iff (before : List Tag) {line : List Tag}
    (member : before ++ line ∈ [] :: Tag.lineages (Document.ofText text).root.children)
    (node : s.nodeAt? before = some n) :
    (∀ c ∈ line, ∀ f ∈ validate s (Document.ofText text), ¬ Misplaces c f) ↔
      (∃ m, line.foldlM s.below? n = some m) ∧
        s.Along (fun m c => ∀ space ∈ m.space, space = c.step.space) n line := by
  induction line generalizing before n with
  | nil => simp [Schema.along_nil]
  | cons c line ih =>
      have member' := (List.mem_cons.1 member).resolve_left (by simp)
      have here := exists_misplaces_iff (Tag.mem_lineages_of_append member') node
      have quiet : (∀ f ∈ validate s (Document.ofText text), ¬ Misplaces c f) ↔
          childFindings s n c = [] := by
        simpa using not_congr here
      rw [List.append_cons] at member
      have ih (m : Node) (below : s.below? n c = some m) :=
        ih (before ++ [c]) member (Schema.nodeAt?_concat node below)
      rw [List.forall_mem_cons, quiet, childFindings_eq_nil_iff, List.foldlM_cons]
      constructor
      · rintro ⟨⟨m, below, same⟩, rest⟩
        obtain ⟨found, along⟩ := (ih m below).1 rest
        exact ⟨by simpa [below] using found, (Schema.along_cons_of_below? below).2 ⟨same, along⟩⟩
      · rintro ⟨⟨m', found⟩, along⟩
        obtain ⟨m, below, found⟩ := Option.bind_eq_some_iff.1 found
        obtain ⟨same, along⟩ := (Schema.along_cons_of_below? below).1 along
        exact ⟨⟨m, below, same⟩, (ih m below).2 ⟨⟨m', found⟩, along⟩⟩

end Text

/-! ## What is found at a tag is found -/

section Parts

variable {s : Schema} {n m : Node} {c : Tag}

theorem childNode_eq_ok_iff :
    childNode s (s.childrenOf n) c = .ok m ↔ s.below? n c = some m := by
  rw [childNode_eq, Schema.below?]
  by_cases allowed : s.Allows c
  · cases s.named? n c <;> simp [allowed]
  · simp [allowed]

/-- The way of a validator from tag to tag. -/
theorem foldlM_childNode_eq_ok_iff {line : List Tag} :
    line.foldlM (fun n => childNode s (s.childrenOf n)) n = .ok m ↔
      line.foldlM s.below? n = some m := by
  induction line generalizing n with
  | nil => exact ⟨fun same => congrArg some (Except.ok.inj same),
      fun same => congrArg Except.ok (Option.some.inj same)⟩
  | cons c line ih =>
      rw [List.foldlM_cons, List.foldlM_cons]
      cases found : childNode s (s.childrenOf n) c with
      | error fault =>
          have below : s.below? n c = none := by
            refine Option.eq_none_iff_forall_ne_some.2 fun m' below => ?_
            rw [childNode_eq_ok_iff.2 below] at found
            cases found
          exact ⟨nofun, by simp [below]⟩
      | ok m' =>
          rw [childNode_eq_ok_iff.1 found]
          exact ih

theorem checkTag_infix_checkChildren {cs : List Tag} (child : c ∈ cs)
    (below : s.below? n c = some m) : checkTag s m c <:+: checkChildren s (s.childrenOf n) cs := by
  obtain ⟨before, after, rfl⟩ := List.append_of_mem child
  clear child
  induction before with
  | nil =>
      rw [List.nil_append, checkChildren_cons, below]
      refine ⟨childFindings s n c, checkChildren s (s.childrenOf n) after, ?_⟩
      rw [Option.toList_some, List.flatMap_singleton]
  | cons d before ih =>
      rw [List.cons_append, checkChildren_cons]
      exact ih.trans (List.suffix_append _ _).isInfix

/-- What is found at a tag is part of what is found at a tag that it stands in. -/
theorem checkTag_infix {top : Tag} {line : List Tag}
    (member : line ∈ [] :: Tag.lineages top.children)
    (node : line.foldlM s.below? n = some m) :
    checkTag s m (line.getLastD top) <:+: checkTag s n top := by
  induction line generalizing n top with
  | nil =>
      obtain rfl : n = m := by simpa using node
      exact List.infix_rfl
  | cons c line ih =>
      obtain ⟨child, member⟩ := Tag.cons_mem_paths.1 member
      rw [List.foldlM_cons] at node
      obtain ⟨m', below, node⟩ := Option.bind_eq_some_iff.1 node
      rw [List.getLastD_cons, checkTag_eq s n top]
      exact (ih member node).trans
        ((checkTag_infix_checkChildren child below).trans (List.prefix_append _ _).isInfix)

end Parts

end Validation

/-- A tag is written with the namespace of its node exactly if a declared namespace is
written and a written one is declared. -/
theorem Node.spaceName_eq_iff {n : Node} {t : Tag} (written : t.space ≠ some "") :
    n.spaceName = t.step.space ↔
      (∀ space ∈ n.space, space = t.step.space) ∧ (t.space.isSome → n.space = t.space) := by
  unfold Node.spaceName Tag.step
  cases declared : n.space with
  | none => cases space : t.space <;> simp_all [eq_comm]
  | some x => cases space : t.space <;> simp_all

open Validation in
/-- **Lookup agrees with validation**, if all namespaces that a schema declares are listed.
The names of a tag of a text and of the tags around it lead to a node exactly if none of the
tags is misplaced or has a namespace that its node does not declare.  The node is the one
that a validator comes to on its way down, and the one that it checks the tag against. -/
theorem Schema.resolution_agrees {s : Schema} (listed : s.Listed) {text : List Char}
    {line : List Tag} {t : Tag}
    (member : line ++ [t] ∈ Tag.lineages (Document.ofText text).root.children) :
    let found := validate s (Document.ofText text)
    let path := (line ++ [t]).map Tag.step
    ((s.resolve? path).isSome ↔
      (∀ c ∈ line ++ [t], ∀ f ∈ found, ¬ Misplaces c f) ∧
        s.Along (fun node c => c.space.isSome → node.space = c.space) s.root (line ++ [t])) ∧
    ∀ node, s.resolve? path = some node →
      (line ++ [t]).foldlM (fun n => childNode s (s.childrenOf n)) s.root = .ok node ∧
        checkTag s node t <:+: found := by
  intro found path
  have resolved (node : Node) : s.resolve? path = some node ↔
      s.nodeAt? (line ++ [t]) = some node ∧
        s.Along (fun m c => m.spaceName = c.step.space) s.root (line ++ [t]) :=
    foldlM_step?_eq_some_iff listed .root
  have placed : (∀ c ∈ line ++ [t], ∀ f ∈ found, ¬ Misplaces c f) ↔
      (∃ node, s.nodeAt? (line ++ [t]) = some node) ∧
        s.Along (fun m c => ∀ space ∈ m.space, space = c.step.space) s.root (line ++ [t]) :=
    forall_not_misplaces_iff [] (List.mem_cons_of_mem _ member) rfl
  have spaces : s.Along (fun m c => m.spaceName = c.step.space) s.root (line ++ [t]) ↔
      s.Along (fun m c => ∀ space ∈ m.space, space = c.step.space) s.root (line ++ [t]) ∧
      s.Along (fun m c => c.space.isSome → m.space = c.space) s.root (line ++ [t]) :=
    along_and_iff fun m c inside => m.spaceName_eq_iff
      (Document.space_ne_of_mem (Tag.mem_preorder_of_lineage member inside))
  constructor
  · rw [Option.isSome_iff_exists, placed, and_assoc, ← spaces, ← exists_and_right]
    exact exists_congr resolved
  · intro node isNode
    obtain ⟨nodeAt, -⟩ := (resolved node).1 isNode
    have inside := checkTag_infix (List.mem_cons_of_mem [] member) nodeAt
    rw [List.getLastD_concat] at inside
    exact ⟨foldlM_childNode_eq_ok_iff.2 nodeAt, inside.trans ⟨_, _, rfl⟩⟩

/-- A tag of a sub-package that has to be written with its namespace. -/
theorem Schema.resolution_agrees_recipe :
    let d := Document.ofText "subPackage \x7b x:ddoxFilterArgs \"v\" \x7d".toList
    ∃ p c, d.root.children = [p] ∧ p.children = [c] ∧
      ∃ node, recipe.resolve? [p.step, c.step] = some node ∧
        Validation.checkTag recipe node c <:+: validate recipe d := by
  intro d
  obtain ⟨p, c, top, below, known⟩ : ∃ p c, d.root.children = [p] ∧ p.children = [c] ∧
      (recipe.resolve? [p.step, c.step]).isSome :=
    ⟨⟨none, "subPackage", ⟨0, 10⟩, some ⟨0, 35⟩, [], [], [⟨some "x", "ddoxFilterArgs", ⟨13, 29⟩,
        some ⟨13, 33⟩, [⟨.string, "v", ⟨30, 33⟩⟩], [], []⟩]⟩,
      _, by cbv, rfl, by decide +kernel⟩
  obtain ⟨node, isNode⟩ := Option.isSome_iff_exists.1 known
  have member : [p] ++ [c] ∈ Tag.lineages d.root.children := by
    rw [top]
    refine Tag.cons_mem_lineages.2 ⟨List.mem_singleton_self p, ?_⟩
    rw [below]
    exact Tag.cons_mem_paths.2 ⟨List.mem_singleton_self c, List.mem_cons_self⟩
  exact ⟨p, c, top, below, node, isNode, ((resolution_agrees listed_recipe member).2 node isNode).2⟩

end PackageRecipe
