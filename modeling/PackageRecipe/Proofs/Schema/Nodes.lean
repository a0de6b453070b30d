import Mathlib
import PackageRecipe.Proofs.Keyed
import PackageRecipe.Schema.Recipe

/-!
# The nodes of a schema

A schema may be walked down without end, since the children of a node may be those of the
root again.  What holds for all its nodes is shown along such a walk.

## Main Definitions

* `Schema.IsNode` — the nodes that a walk from the root comes to
* `Node.rules` — what a node says about values
* `Schema.Listed` — the schema lists the namespaces that its tags declare
* `Schema.Spellable` — what is written for a tag is known to be its namespace and its name

## Design Notes

The schema of recipes is `Listed`: `Schema.listed_recipe`.  Its tags are kept in lists that
are ordered by name, and for what is said of all tags the order does not matter
(`Keyed.mem_of_mem_ofList`).
-/

namespace PackageRecipe

open PackageRecipe.Sdl

/-- A name and a namespace without a colon, so that they are known by what is written for
them. -/
def Sdl.QualifiedName.Spellable (q : QualifiedName) : Prop :=
  ':' ∉ q.name.toList ∧ ':' ∉ q.space.toList

/-- A node whose tags have no namespace and no children. -/
def Node.Plain (n : Node) : Prop :=
  n.space = none ∧ n.content matches .none

/-- The rules for the values of a tag and of its attributes. -/
def Node.rules (n : Node) : List ValueRule :=
  n.values.toList ++ n.attributes.map (·.2.values)

namespace Schema

/-- The nodes of a schema: its root and all that may stand below a node. -/
inductive IsNode (s : Schema) : Node → Prop where
  | root : IsNode s s.root
  | child {n m : Node} {tags : Keyed Node} {name : String} :
      IsNode s n → s.childrenOf n = some tags → (name, m) ∈ tags → IsNode s m

/-- The schema lists all namespaces that its tags declare. -/
def Listed (s : Schema) : Prop :=
  ∀ n tags, s.IsNode n → s.childrenOf n = some tags →
    ∀ p ∈ tags, ∀ space ∈ p.2.space, space ∈ s.spaces

/-- The tags of a node are found by their names, and no name or namespace has a colon in it. -/
structure Spellable (s : Schema) : Prop where
  sorted : ∀ n tags, s.IsNode n → s.childrenOf n = some tags → tags.Sorted
  plain : ∀ n tags, s.IsNode n → s.childrenOf n = some tags →
    ∀ p ∈ tags, QualifiedName.Spellable ⟨p.2.spaceName, p.1⟩

theorem step?_eq_some {s : Schema} {n m : Node} {q : QualifiedName} :
    s.step? n q = some m ↔ ∃ tags, s.childrenOf n = some tags ∧ tags.get? q.name = some m ∧
      m.spaceName = q.space := by
  simp only [step?, Option.bind_eq_bind, Option.bind_eq_some_iff, Option.ite_none_right_eq_some,
    Option.some.injEq]
  constructor
  · rintro ⟨tags, children, m', named, same, rfl⟩
    exact ⟨tags, children, named, same⟩
  · rintro ⟨tags, children, named, same⟩
    exact ⟨tags, children, m, named, same, rfl⟩

/-- A path of names leads to nodes of the schema. -/
theorem isNode_of_foldlM {s : Schema} {n m : Node} {path : List QualifiedName}
    (inside : s.IsNode n) (found : path.foldlM s.step? n = some m) : s.IsNode m := by
  induction path generalizing n with
  | nil =>
      obtain rfl : n = m := by simpa using found
      exact inside
  | cons q path ih =>
      rw [List.foldlM_cons] at found
      obtain ⟨m', step, found⟩ := Option.bind_eq_some_iff.1 found
      obtain ⟨tags, children, named, -⟩ := step?_eq_some.1 step
      exact ih (.child inside children (Keyed.mem_of_get? named)) found

/-! ## The schema of recipes -/

theorem plain_of_mem_buildSettings : ∀ p ∈ buildSettings, p.2.Plain := by
  have all : buildSettings.all (fun p => p.2.space.isNone && p.2.content matches .none) := rfl
  simpa [Node.Plain] using all

theorem packageTags_cases : ∀ p ∈ packageTags, (p.2.space = none ∨ p.2.space = some "x") ∧
    (p.2.content = .none ∨ p.2.content = .root ∨ p.2.content = .own configurationTags ∨
      p.2.content = .own buildTypeTags) := by
  intro p member
  simp only [packageTags, List.mem_cons, List.not_mem_nil, or_false] at member
  rcases member with rfl | rfl | rfl | rfl | rfl | rfl | rfl | rfl | rfl | rfl <;>
    simp [oneString, strings, variant]

/-- A tag of a recipe: a setting of the build, a restriction of a configuration or a part of
the description of a package. -/
def IsTag (p : String × Node) : Prop :=
  p ∈ buildSettings ∨ (p.1 = "platforms" ∧
    ∃ description, p.2 = { description := description, values := some { kind := .string } }) ∨
    p ∈ packageTags

theorem isTag_of_mem_configurationTags : ∀ p ∈ configurationTags, IsTag p := by
  intro p member
  rcases List.mem_append.1 (Keyed.mem_of_mem_ofList member) with setting | platforms
  · exact .inl setting
  · obtain rfl := List.mem_singleton.1 platforms
    exact .inr (.inl ⟨rfl, _, rfl⟩)

theorem isTag_of_mem_buildTypeTags : ∀ p ∈ buildTypeTags, IsTag p := by
  intro p member
  exact .inl (List.mem_of_mem_filter (Keyed.mem_of_mem_ofList member))

/-- The tags below a node of recipes. -/
theorem childrenOf_recipe {n : Node} {tags : Keyed Node}
    (known : n = recipe.root ∨ ∃ name, IsTag (name, n))
    (children : recipe.childrenOf n = some tags) : tags.Sorted ∧ ∀ p ∈ tags, IsTag p := by
  have atRoot : ∀ p ∈ Keyed.ofList (buildSettings ++ packageTags), IsTag p := by
    intro p member
    rcases List.mem_append.1 (Keyed.mem_of_mem_ofList member) with setting | tag
    · exact .inl setting
    · exact .inr (.inr tag)
  have leaf (plain : n.Plain) : tags.Sorted ∧ ∀ p ∈ tags, IsTag p := by
    obtain ⟨-, plain⟩ := plain
    unfold childrenOf at children
    split at children <;> simp_all
  rcases known with rfl | ⟨name, setting | ⟨-, description, rfl⟩ | member⟩
  · obtain rfl := Option.some.inj children
    exact ⟨Keyed.sorted_ofList _, atRoot⟩
  · exact leaf (plain_of_mem_buildSettings _ setting)
  · exact leaf ⟨rfl, rfl⟩
  · obtain ⟨-, content⟩ := packageTags_cases _ member
    unfold childrenOf at children
    rcases content with content | content | content | content <;> rw [content] at children
    · cases children
    · obtain rfl := Option.some.inj children
      exact ⟨Keyed.sorted_ofList _, atRoot⟩
    · obtain rfl := Option.some.inj children
      exact ⟨Keyed.sorted_ofList _, isTag_of_mem_configurationTags⟩
    · obtain rfl := Option.some.inj children
      exact ⟨Keyed.sorted_ofList _, isTag_of_mem_buildTypeTags⟩

theorem isTag_of_isNode {n : Node} (isNode : recipe.IsNode n) :
    n = recipe.root ∨ ∃ name, IsTag (name, n) := by
  induction isNode with
  | root => exact .inl rfl
  | child _ children member ih => exact .inr ⟨_, (childrenOf_recipe ih children).2 _ member⟩

/-- **The schema of recipes lists the namespaces of its tags.** -/
theorem listed_recipe : recipe.Listed := by
  intro n tags isNode children p member space declared
  rcases (childrenOf_recipe (isTag_of_isNode isNode) children).2 p member with
    setting | ⟨-, description, node⟩ | tag
  · simp [(plain_of_mem_buildSettings p setting).1] at declared
  · simp [node] at declared
  · obtain ⟨spaces | spaces, -⟩ := packageTags_cases p tag
    · simp [spaces] at declared
    · obtain rfl : "x" = space := by simpa [spaces] using declared
      exact List.mem_singleton_self _

/-- **The tags of recipes can be told apart** by what is written for them. -/
theorem spellable_recipe : recipe.Spellable where
  sorted n tags isNode children := (childrenOf_recipe (isTag_of_isNode isNode) children).1
  plain n tags isNode children p member := by
    have all : (buildSettings ++ packageTags).all
      (fun p => !p.1.toList.contains ':' && !p.2.spaceName.toList.contains ':') := rfl
    have listed (listed : p ∈ buildSettings ++ packageTags) :
        QualifiedName.Spellable ⟨p.2.spaceName, p.1⟩ := by
      simpa [QualifiedName.Spellable] using List.all_eq_true.1 all p listed
    rcases (childrenOf_recipe (isTag_of_isNode isNode) children).2 p member with
      setting | ⟨platforms, description, node⟩ | tag
    · exact listed (List.mem_append_left _ setting)
    · rw [QualifiedName.Spellable, platforms, Node.spaceName, node]
      exact (by decide : ':' ∉ "platforms".toList ∧ ':' ∉ "".toList)
    · exact listed (List.mem_append_right _ tag)

end Schema

end PackageRecipe
