import Mathlib
import PackageRecipe.Proofs.Sdl.Grammar
import PackageRecipe.Proofs.Keyed

/-!
# Views of a tree

A tag shows its tree in two ways: all tags below it in a row, and its children in groups by name.
This file compares both with the tree itself.

## Main Definitions

* `Tag.at?` — the tag at a place of the tree, given by child numbers from the top
* `Tag.Stack` — a walk over the tree, by the tags that are still to be visited
* `Tag.byName`, `Tag.spaced` — what the groups of a tag are made from

## Design Notes

Places are compared as lists of numbers, so that a place stands in front of all places below it
and of those further right.  `places` lists them with the recursion of `preorder`, and each fact
about them is one induction over the tree.  A walk knows no recursion; its stack, read from the
top, always holds the tags whose listing is still to come (`Stack.answers_eq`).
-/

namespace PackageRecipe.Sdl

namespace Tag

/-! ## Places in a tree -/

/-- The tag that is found below a tag by going to the child with the first number, from there to
its child with the second number, and so on. -/
def at? (t : Tag) : List ℕ → Option Tag
  | [] => some t
  | i :: is => t.children[i]?.bind (at? · is)

mutual

/-- The places below a tag. -/
def places : Tag → List (List ℕ)
  | ⟨_, _, _, _, _, _, children⟩ => placesFrom 0 children

/-- The places in tags, which are the children with the numbers from `i` on. -/
def placesFrom (i : ℕ) : List Tag → List (List ℕ)
  | [] => []
  | t :: ts => [i] :: ((places t).map (i :: ·) ++ placesFrom (i + 1) ts)

end

variable {t c : Tag} {ts : List Tag} {i : ℕ} {is : List ℕ}

theorem places_eq (t : Tag) : t.places = placesFrom 0 t.children := by
  cases t
  rw [places]

theorem placesFrom_cons : placesFrom i (t :: ts) =
    [i] :: ((placesFrom 0 t.children).map (i :: ·) ++ placesFrom (i + 1) ts) := by
  rw [placesFrom, places_eq]

theorem at?_nil (t : Tag) : t.at? [] = some t := rfl

theorem at?_cons (child : t.children[i]? = some c) : t.at? (i :: is) = c.at? is := by
  rw [at?, child, Option.bind_some]

/-- The listed places lead to the tags in the order of their listing. -/
theorem map_at?_placesFrom : ∀ (before ts : List Tag) {t : Tag}, t.children = before ++ ts →
    (placesFrom before.length ts).map t.at? = (preorder ts).map some
  | _, [], _, _ => rfl
  | before, ⟨space, name, nameSpan, span, values, attributes, inner⟩ :: ts, t, children => by
      generalize made : (⟨space, name, nameSpan, span, values, attributes, inner⟩ : Tag) = c at *
      have child : t.children[before.length]? = some c := by simp [children]
      have below : (placesFrom 0 inner).map c.at? = (preorder inner).map some :=
        map_at?_placesFrom [] inner (by rw [← made]; rfl)
      have behind : (placesFrom (before.length + 1) ts).map t.at? = (preorder ts).map some := by
        have rest : t.children = (before ++ [c]) ++ ts := by simp [children]
        simpa using map_at?_placesFrom (before ++ [c]) ts rest
      have here : c.children = inner := by rw [← made]
      rw [placesFrom_cons, preorder_cons, here]
      simp only [List.map_cons, List.map_append, List.map_map, behind, ← below]
      congr 2
      · exact at?_cons child
      · exact List.map_congr_left fun is _ => at?_cons child

theorem isSome_at?_cons_iff :
    (t.at? (i :: is)).isSome = true ↔ ∃ c, t.children[i]? = some c ∧ (c.at? is).isSome = true := by
  rw [at?, Option.isSome_bind, Option.any_eq_true]

/-- The listed places are those that lead to a tag. -/
theorem mem_placesFrom_iff : ∀ (ts : List Tag) (i : ℕ) (is : List ℕ), is ∈ placesFrom i ts ↔
    ∃ j c js, is = (i + j) :: js ∧ ts[j]? = some c ∧ (c.at? js).isSome = true
  | [], _, _ => by simp [placesFrom]
  | ⟨space, name, nameSpan, span, values, attributes, inner⟩ :: ts, i, is => by
      generalize made : (⟨space, name, nameSpan, span, values, attributes, inner⟩ : Tag) = c
      have here : c.children = inner := by rw [← made]
      have behind := mem_placesFrom_iff ts (i + 1) is
      have below (js : List ℕ) : (c.at? js).isSome = true ↔ js = [] ∨ js ∈ placesFrom 0 inner := by
        have inside := mem_placesFrom_iff inner 0 js
        cases js with
        | nil => simp [at?_nil]
        | cons k js => simp [isSome_at?_cons_iff, inside, here]
      rw [placesFrom_cons, List.mem_cons, List.mem_append, List.mem_map, here, behind]
      constructor
      · rintro (rfl | ⟨js, inside, rfl⟩ | ⟨j, d, js, rfl, found, leads⟩)
        · exact ⟨0, c, [], rfl, rfl, rfl⟩
        · exact ⟨0, c, js, rfl, rfl, (below js).2 (.inr inside)⟩
        · exact ⟨j + 1, d, js, by rw [Nat.add_right_comm, Nat.add_assoc], found, leads⟩
      · rintro ⟨j, d, js, rfl, found, leads⟩
        cases j with
        | zero =>
            obtain rfl : c = d := Option.some.inj found
            exact ((below js).1 leads).imp (fun none => by rw [none]; rfl)
              fun inside => .inl ⟨js, inside, rfl⟩
        | succ j =>
            exact .inr (.inr ⟨j, d, js, by rw [Nat.add_right_comm, Nat.add_assoc], found, leads⟩)

theorem mem_places_iff : is ∈ t.places ↔ is ≠ [] ∧ (t.at? is).isSome = true := by
  rw [places_eq, mem_placesFrom_iff]
  cases is with
  | nil => simp
  | cons i is => simp [isSome_at?_cons_iff]

/-- Places are listed in their order. -/
theorem pairwise_placesFrom : ∀ (ts : List Tag) (i : ℕ), (placesFrom i ts).Pairwise (· < ·)
  | [], _ => .nil
  | ⟨space, name, nameSpan, span, values, attributes, inner⟩ :: ts, i => by
      have below := pairwise_placesFrom inner 0
      have behind := pairwise_placesFrom ts (i + 1)
      have further : ∀ is ∈ placesFrom (i + 1) ts, ∀ js, i :: js < is := by
        intro is member js
        obtain ⟨j, c, is, rfl, -⟩ := (mem_placesFrom_iff ts _ _).1 member
        exact List.cons_lt_cons_iff.2 (.inl (by omega))
      rw [placesFrom_cons, List.pairwise_cons, List.pairwise_append, List.pairwise_map]
      refine ⟨fun is member => ?_,
        below.imp fun order => List.cons_lt_cons_iff.2 (.inr ⟨rfl, order⟩), behind,
        fun is member => ?_⟩
      · rcases List.mem_append.1 member with member | member
        · obtain ⟨js, inside, rfl⟩ := List.mem_map.1 member
          obtain ⟨j, c, js, rfl, -⟩ := (mem_placesFrom_iff inner _ _).1 inside
          exact List.cons_lt_cons_iff.2 (.inr ⟨rfl, List.nil_lt_cons _ _⟩)
        · exact further is member []
      · obtain ⟨js, -, rfl⟩ := List.mem_map.1 member
        exact fun is member => further is member js

/-! ## A walk with a stack -/

/-- The tags that a walk has still to visit, without those below them, the next one last. -/
abbrev Stack := List Tag

namespace Stack

/-- A walk that begins below a tag. -/
def below (t : Tag) : Stack :=
  t.children.reverse

/-- The next tag of a walk and what the walk has still to visit then: the children of the tag are
put where it was, the first one as the next. -/
def next? (stack : Stack) : Option (Tag × Stack) :=
  stack.getLast?.map fun t => (t, stack.dropLast ++ t.children.reverse)

/-- The stack of a walk that has been asked for the next tag a number of times. -/
def after : ℕ → Stack → Stack
  | 0, stack => stack
  | n + 1, stack => after n (stack.next?.elim stack Prod.snd)

/-- What a walk answers when it has been asked `n` times before. -/
def answer (n : ℕ) (stack : Stack) : Option Tag :=
  (after n stack).next?.map Prod.fst

theorem next?_concat (stack : Stack) (t : Tag) :
    next? (stack ++ [t]) = some (t, stack ++ t.children.reverse) := by
  rw [next?, List.getLast?_concat, List.dropLast_concat, Option.map_some]

/-- **A walk answers the tags that its stack lists**, from the top of the stack, and then
nothing more. -/
theorem answer_eq (n : ℕ) (stack : Stack) :
    stack.answer n = (preorder stack.reverse)[n]? := by
  induction n generalizing stack with
  | zero =>
      rcases List.eq_nil_or_concat stack with rfl | ⟨stack, t, rfl⟩
      · rfl
      · simp [answer, after, next?_concat, preorder_cons]
  | succ n ih =>
      have step : stack.answer (n + 1) = answer n (stack.next?.elim stack Prod.snd) := rfl
      rw [step, ih]
      rcases List.eq_nil_or_concat stack with rfl | ⟨stack, t, rfl⟩
      · rfl
      · simp [next?_concat, preorder_cons, preorder_append]

end Stack

/-! ## Groups of children -/

/-- Tags in groups by name. -/
def byName (ts : List Tag) : Keyed (List Tag) :=
  Keyed.group (ts.map fun c => (c.name, c))

theorem get?_byName_eq_some_iff {name : String} {group : List Tag} :
    (byName ts).get? name = some group ↔
      group ≠ [] ∧ group = ts.filter fun c => c.name = name := by
  rw [byName, Keyed.get?_group_eq_some_iff, List.filter_map, List.map_map]
  simp [Function.comp_def]

theorem flatten_byName_perm (ts : List Tag) : ((byName ts).map Prod.snd).flatten.Perm ts := by
  simpa [byName, Function.comp_def] using Keyed.flatten_group_perm (ts.map fun c => (c.name, c))

theorem plainChildren_eq (t : Tag) :
    t.plainChildren = byName (t.children.filter (·.space.isNone)) := rfl

theorem get?_plainChildren_eq_some_iff {name : String} {group : List Tag} :
    t.plainChildren.get? name = some group ↔
      group ≠ [] ∧ group = t.children.filter fun c => c.space = none ∧ c.name = name := by
  rw [plainChildren_eq, get?_byName_eq_some_iff, List.filter_filter]
  have same : ∀ c ∈ t.children, (decide (c.name = name) && c.space.isNone) =
      decide (c.space = none ∧ c.name = name) := by
    intro c _
    cases c.space <;> simp
  rw [List.filter_congr same]

/-- The tags with a namespace, each behind its namespace. -/
def spaced (ts : List Tag) : List (String × Tag) :=
  ts.filterMap fun c => c.space.map (·, c)

theorem filter_spaced (ts : List Tag) (space : String) :
    ((spaced ts).filter fun p => p.1 = space).map Prod.snd =
      ts.filter fun c => c.space = some space := by
  induction ts with
  | nil => rfl
  | cons c ts ih =>
      unfold spaced at *
      rw [List.filterMap_cons]
      cases written : c.space with
      | none => simpa [written] using ih
      | some own => by_cases same : own = space <;> simpa [written, same] using ih

theorem map_snd_spaced (ts : List Tag) :
    (spaced ts).map Prod.snd = ts.filter fun c => !c.space.isNone := by
  induction ts with
  | nil => rfl
  | cons c ts ih =>
      unfold spaced at *
      rw [List.filterMap_cons]
      cases written : c.space <;> simpa [written] using ih

theorem spacedChildren_eq (t : Tag) : t.spacedChildren =
    (Keyed.group (spaced t.children)).map fun p => (p.1, byName p.2) := rfl

theorem get?_spacedChildren_eq_some_iff {space name : String} {group : List Tag} :
    (t.spacedChildren.get? space).bind (·.get? name) = some group ↔
      group ≠ [] ∧ group = t.children.filter fun c => c.space = some space ∧ c.name = name := by
  have inside : (t.children.filter fun c => c.space = some space ∧ c.name = name) =
      (t.children.filter fun c => c.space = some space).filter fun c => c.name = name := by
    rw [List.filter_filter]
    exact List.filter_congr fun c _ => by simp [and_comm]
  have held {cs : List Tag} : (Keyed.group (spaced t.children)).get? space = some cs ↔
      cs ≠ [] ∧ cs = t.children.filter fun c => c.space = some space := by
    rw [Keyed.get?_group_eq_some_iff, filter_spaced]
  rw [spacedChildren_eq, Keyed.get?_map, inside]
  cases found : (Keyed.group (spaced t.children)).get? space with
  | none =>
      have nothing : (t.children.filter fun c => c.space = some space) = [] := by
        by_contra nonempty
        rw [held.2 ⟨nonempty, rfl⟩] at found
        simp at found
      rw [nothing]
      simp
  | some cs =>
      obtain ⟨-, rfl⟩ := held.1 found
      exact get?_byName_eq_some_iff

/-- The groups hold each child once. -/
theorem groups_perm (t : Tag) :
    ((t.plainChildren.map Prod.snd).flatten ++
      t.spacedChildren.flatMap fun p => (p.2.map Prod.snd).flatten).Perm t.children := by
  have bySpace : (t.spacedChildren.flatMap fun p => (p.2.map Prod.snd).flatten).Perm
      (t.children.filter fun c => !c.space.isNone) := by
    rw [← map_snd_spaced, spacedChildren_eq, List.flatMap_map]
    refine .trans ?_ (Keyed.flatten_group_perm (spaced t.children))
    rw [← List.flatMap_def]
    exact List.Perm.flatMap_left _ fun p _ => flatten_byName_perm p.2
  rw [plainChildren_eq]
  exact ((flatten_byName_perm _).append bySpace).trans (List.filter_append_perm _ _)

/-- **The views of a tag hold what its tree holds.**  The tags below a tag are listed by their
places, each place once, and each in front of all that are below it or further right; a walk with
a stack gives the same tags one by one, and then no more.  A group of children without namespace
holds all those of its name, in the order of the tree, a group of children with a namespace all
those of both names, and all groups together hold each child once. -/
theorem views_faithful (t : Tag) :
    (∃ places : List (List ℕ), places.Pairwise (· < ·) ∧
      (∀ is, is ∈ places ↔ is ≠ [] ∧ (t.at? is).isSome = true) ∧
      t.descendants.map some = places.map t.at?) ∧
    (∀ n, (Stack.below t).answer n = t.descendants[n]?) ∧
    (t.plainChildren.Sorted ∧ t.spacedChildren.Sorted ∧ ∀ p ∈ t.spacedChildren, p.2.Sorted) ∧
    (∀ name group, t.plainChildren.get? name = some group ↔
      group ≠ [] ∧ group = t.children.filter fun c => c.space = none ∧ c.name = name) ∧
    (∀ space name group, (t.spacedChildren.get? space).bind (·.get? name) = some group ↔
      group ≠ [] ∧ group = t.children.filter fun c => c.space = some space ∧ c.name = name) ∧
    ((t.plainChildren.map Prod.snd).flatten ++
      t.spacedChildren.flatMap fun p => (p.2.map Prod.snd).flatten).Perm t.children := by
  refine ⟨⟨t.places, ?_, fun is => mem_places_iff, ?_⟩, fun n => ?_, ⟨?_, ?_, ?_⟩,
    fun _ _ => get?_plainChildren_eq_some_iff, fun _ _ _ => get?_spacedChildren_eq_some_iff,
    groups_perm t⟩
  · rw [places_eq]
    exact pairwise_placesFrom t.children 0
  · rw [places_eq, descendants_eq]
    exact (map_at?_placesFrom [] t.children rfl).symm
  · rw [Stack.answer_eq, Stack.below, List.reverse_reverse, descendants_eq]
  · exact Keyed.sorted_group _
  · rw [spacedChildren_eq]
    exact (Keyed.sorted_group _).map byName
  · intro p member
    rw [spacedChildren_eq] at member
    obtain ⟨q, -, rfl⟩ := List.mem_map.1 member
    exact Keyed.sorted_group _

/-- A tag whose three children have one name, two of them without namespace, and a tag below the
first child. -/
theorem views_faithful_shared :
    let tag (space : Option String) (name : String) (children : List Tag) : Tag :=
      ⟨space, name, ⟨0, 0⟩, none, [], [], children⟩
    let first := tag none "a" [tag none "b" []]
    let second := tag (some "s") "a" []
    let third := tag none "a" []
    let top := tag none "" [first, second, third]
    ("s", [("a", [second])]) ∈ top.spacedChildren ∧ Keyed.Sorted [("a", [second])] ∧
      top.plainChildren.get? "a" = some [first, third] ∧
      (Stack.below top).answer 1 = some (tag none "b" []) := by
  intro tag first second third top
  obtain ⟨-, walk, ⟨-, -, inner⟩, plain, -⟩ := views_faithful top
  have member : ("s", [("a", [second])]) ∈ top.spacedChildren := List.mem_singleton.2 rfl
  exact ⟨member, inner _ member, (plain _ _).2 ⟨List.cons_ne_nil _ _, rfl⟩, walk 1⟩

end Tag

end PackageRecipe.Sdl
