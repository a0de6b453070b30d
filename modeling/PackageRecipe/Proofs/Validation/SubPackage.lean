import Mathlib
import PackageRecipe.Proofs.Validation.Resolution

/-!
# Sub-packages

A tag whose children are those of the root is treated as the root is, at every depth.

## Main Results

* `Schema.resolve?_append` — behind such a tag a path goes on as it does from the root
* `Validation.subPackage_as_root` — what a validator finds there is what it finds at the root

## Design Notes

A node is asked for its children only through `Schema.childrenOf`, and there it cannot be told
from the root (`Schema.childrenOf_of_root`).  This holds as well if the root has no tags of its
own, or refers to itself: then neither has children.
-/

namespace PackageRecipe

open PackageRecipe.Sdl PackageRecipe.Text

namespace Schema

variable {s : Schema} {n : Node}

/-- A node that takes the tags of the root has the children of the root. -/
theorem childrenOf_of_root (root : n.content = .root) : s.childrenOf n = s.childrenOf s.root := by
  unfold childrenOf
  rw [root]
  cases s.root.content <;> rfl

theorem step?_of_root (root : n.content = .root) (q : QualifiedName) :
    s.step? n q = s.step? s.root q := by
  rw [step?, step?, childrenOf_of_root root]

/-- A path that goes on goes on as it does from the root. -/
theorem foldlM_step?_of_root (root : n.content = .root) {q : List QualifiedName} (goesOn : q ≠ []) :
    q.foldlM s.step? n = s.resolve? q := by
  obtain ⟨first, rest, rfl⟩ := List.exists_cons_of_ne_nil goesOn
  rw [resolve?, List.foldlM_cons, List.foldlM_cons, step?_of_root root]

theorem resolve?_append {p q : List QualifiedName} (found : s.resolve? p = some n)
    (root : n.content = .root) (goesOn : q ≠ []) : s.resolve? (p ++ q) = s.resolve? q := by
  rw [resolve?] at found
  rw [resolve?, List.foldlM_append, found]
  exact foldlM_step?_of_root root goesOn

/-- Sub-packages may be left out at the head of a path. -/
theorem resolve?_replicate_append (k : Nat) {q : List QualifiedName} (goesOn : q ≠ []) :
    recipe.resolve? (List.replicate k (.plain "subPackage") ++ q) = recipe.resolve? q := by
  obtain ⟨n, found, root⟩ : ∃ n, recipe.resolve? [.plain "subPackage"] = some n ∧
      n.content = .root := ⟨_, by rfl, rfl⟩
  induction k with
  | zero => rfl
  | succ k ih =>
      have behind : List.replicate k (.plain "subPackage") ++ q ≠ [] := by simp [goesOn]
      calc recipe.resolve? (List.replicate (k + 1) (.plain "subPackage") ++ q)
          = recipe.resolve? ([.plain "subPackage"] ++
              (List.replicate k (.plain "subPackage") ++ q)) := rfl
        _ = recipe.resolve? (List.replicate k (.plain "subPackage") ++ q) :=
            resolve?_append found root behind
        _ = recipe.resolve? q := ih

end Schema

namespace Validation

variable {s : Schema} {n : Node}

/-- What a validator finds below a tag that takes the tags of the root. -/
theorem checkTag_of_root (root : n.content = .root) (t : Tag) :
    checkTag s n t = checkChildren s (s.childrenOf s.root) t.children ++ ownFindings n t := by
  rw [checkTag_eq, Schema.childrenOf_of_root root]

/-- **Sub-packages are treated like the root**, at every depth.  What a validator finds at the
children of a tag that takes the tags of the root, and below them, is what it finds at the same
children under the root, in the same order.  It finds this wherever the tag stands in a document.
Behind a path to such a tag all paths lead where they lead from the root, so that in recipes any
number of sub-packages may be left out at the head of a path. -/
theorem subPackage_as_root (s : Schema) :
    (∀ n t, n.content = .root → ∃ found, checkTag s n t = found ++ ownFindings n t ∧
      ∀ u : Tag, u.children = t.children → checkTag s s.root u = found ++ ownFindings s.root u) ∧
    (∀ d line t n, line ++ [t] ∈ Tag.lineages d.root.children →
      s.nodeAt? (line ++ [t]) = some n → n.content = .root →
        ∃ found, found ++ ownFindings n t <:+: validate s d ∧ ∀ u : Tag, u.children = t.children →
          checkTag s s.root u = found ++ ownFindings s.root u) ∧
    (∀ p q n, s.resolve? p = some n → n.content = .root → q ≠ [] →
      s.resolve? (p ++ q) = s.resolve? q) ∧
    ∀ k q, q ≠ [] → Schema.recipe.resolve? (List.replicate k (.plain "subPackage") ++ q) =
      Schema.recipe.resolve? q := by
  have atRoot (t u : Tag) (same : u.children = t.children) : checkTag s s.root u =
      checkChildren s (s.childrenOf s.root) t.children ++ ownFindings s.root u := by
    rw [checkTag_eq, same]
  refine ⟨?_, ?_, ?_, ?_⟩
  · exact fun n t root => ⟨_, checkTag_of_root root t, atRoot t⟩
  · intro d line t n member node root
    have inside := checkTag_infix (List.mem_cons_of_mem [] member) node
    rw [List.getLastD_concat, checkTag_of_root root] at inside
    exact ⟨_, inside.trans ⟨_, _, rfl⟩, atRoot t⟩
  · exact fun p q n found root goesOn => Schema.resolve?_append found root goesOn
  · exact fun k q goesOn => Schema.resolve?_replicate_append k goesOn

/-- An unknown tag in a sub-package is found as it is at the root. -/
theorem subPackage_as_root_unknown :
    let d : Document := Document.ofText "subPackage \x7b\n  names \"a\"\n\x7d".toList
    let found : List Finding := [⟨some ⟨15, 20⟩, .unknownTag "names"⟩]
    ∃ n t, n.content = .root ∧ [] ++ [t] ∈ Tag.lineages d.root.children ∧
      Schema.recipe.nodeAt? ([] ++ [t]) = some n ∧
      checkTag Schema.recipe n t = found ++ ownFindings n t ∧
      found ++ ownFindings n t <:+: validate Schema.recipe d ∧
      checkTag Schema.recipe Schema.recipe.root (Tag.root t.children) =
        found ++ ownFindings Schema.recipe.root (Tag.root t.children) ∧
      Schema.recipe.resolve? ([.plain "subPackage"] ++ [.plain "name"]) =
        Schema.recipe.resolve? [.plain "name"] := by
  intro d found
  let inner : Tag :=
    ⟨none, "names", ⟨15, 20⟩, some ⟨15, 24⟩, [⟨.string, "a", ⟨21, 24⟩⟩], [], []⟩
  let outer : Tag := ⟨none, "subPackage", ⟨0, 10⟩, some ⟨0, 26⟩, [], [], [inner]⟩
  have document : Document.ofText "subPackage \x7b\n  names \"a\"\n\x7d".toList =
      ⟨Tag.root [⟨none, "subPackage", ⟨0, 10⟩, some ⟨0, 26⟩, [], [],
        [⟨none, "names", ⟨15, 20⟩, some ⟨15, 24⟩, [⟨.string, "a", ⟨21, 24⟩⟩], [], []⟩]⟩], []⟩ := by
    cbv
  have tree : d.root.children = [outer] := congrArg (fun d => d.root.children) document
  have member : [] ++ [outer] ∈ Tag.lineages d.root.children := by simp [tree, Tag.lineages_cons]
  obtain ⟨n, node, root⟩ : ∃ n, Schema.recipe.nodeAt? ([] ++ [outer]) = some n ∧
      n.content = .root := ⟨_, by rfl, rfl⟩
  have path : Schema.recipe.resolve? [.plain "subPackage"] = some n := node
  have top : checkTag Schema.recipe Schema.recipe.root (Tag.root outer.children) =
      found ++ ownFindings Schema.recipe.root (Tag.root outer.children) := by decide +kernel
  obtain ⟨below, inside, behind, -⟩ := subPackage_as_root Schema.recipe
  have only {same : List Finding} (there : ∀ u : Tag, u.children = outer.children →
      checkTag Schema.recipe Schema.recipe.root u = same ++ ownFindings Schema.recipe.root u) :
      same = found :=
    List.append_cancel_right ((there (Tag.root outer.children) rfl).symm.trans top)
  obtain ⟨same, here, there⟩ := below n outer root
  obtain rfl := only there
  obtain ⟨same, part, there⟩ := inside d [] outer n member node root
  obtain rfl := only there
  exact ⟨n, outer, root, member, node, here, part, top, behind _ _ n path root (by simp)⟩

end Validation

end PackageRecipe
