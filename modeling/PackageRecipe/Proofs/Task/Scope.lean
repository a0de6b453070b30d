import PackageRecipe.Proofs.Task.Binding

/-!
# Where tasks apply

A task says as a text where it applies.  This file says which tasks are kept in a workspace, and
to which of several nested folders each of them is bound.

## Main Definitions

* `Folder.Innermost` — a folder that a text lies in, of which no deeper one has the text in it
* `BuildTask.Kept` — a text that means something in a workspace
* `BuildTask.Binds` — a task as it is bound

## Design Notes

A text lies in a folder if it is the root of the folder or goes on behind it with a slash, so
that `/project` does not lie in `/proj`.  All roots of such folders begin the text, hence the
longest one is the same root whatever the order of the folders (`Folder.Innermost.root_eq`), and
it belongs to one folder if no two folders share a root.
-/

namespace PackageRecipe

namespace Folder

variable {f g : Folder} {folders : List Folder} {r s text : String}

/-! ## Roots -/

/-- A text is the URL of a folder without the slashes at its end. -/
def HasRoot (f : Folder) (r : String) : Prop :=
  (∃ n, f.url.render.toList = r.toList ++ List.replicate n '/') ∧ r.toList.getLast? ≠ some '/'

theorem hasRoot_iff : f.HasRoot r ↔ r = f.root := by
  constructor
  · rintro ⟨⟨n, whole⟩, last⟩
    have first : r.toList.reverse.dropWhile (· == '/') = r.toList.reverse := by
      cases back : r.toList.reverse with
      | nil => rfl
      | cons c cs =>
          rw [← List.head?_reverse, back] at last
          exact List.dropWhile_cons_of_neg (by simpa using last)
    rw [root, whole, List.reverse_append, List.reverse_replicate,
      List.dropWhile_append_of_pos (by simp), first, List.reverse_reverse, String.ofList_toList]
  · rintro rfl
    obtain ⟨slashes, whole, all⟩ := f.exists_slashes
    exact ⟨⟨slashes.length, by rw [whole, ← List.eq_replicate_of_mem all]⟩, f.getLast?_root⟩

/-- A text lies below a root if it is the root or continues it with a slash. -/
def Below (r text : String) : Prop :=
  text = r ∨ ∃ rest, text = r ++ "/" ++ rest

/-- A text lies in a folder with a root. -/
def Holds (f : Folder) (r text : String) : Prop :=
  f.HasRoot r ∧ Below r text

theorem below_root_iff : Below f.root text ↔ f.contains text = true := by
  rw [contains_iff]
  constructor
  · rintro (rfl | ⟨rest, rfl⟩)
    · exact ⟨[], by simp, by simp⟩
    · exact ⟨'/' :: rest.toList, by simp, by simp⟩
  · rintro ⟨rest, whole, first⟩
    cases rest with
    | nil => exact .inl (by rwa [List.append_nil, String.toList_inj] at whole)
    | cons c rest =>
        obtain rfl := first c rfl
        exact .inr ⟨String.ofList rest, by rw [← String.toList_inj, whole]; simp⟩

theorem holds_iff : f.Holds r text ↔ r = f.root ∧ f.contains text = true := by
  rw [Holds, hasRoot_iff]
  constructor
  · rintro ⟨rfl, below⟩
    exact ⟨rfl, below_root_iff.1 below⟩
  · rintro ⟨rfl, contains⟩
    exact ⟨rfl, below_root_iff.2 contains⟩

theorem root_prefix_of_contains (contains : f.contains text = true) :
    f.root.toList <+: text.toList := by
  obtain ⟨rest, whole, -⟩ := contains_iff.1 contains
  exact ⟨rest, whole.symm⟩

/-! ## The innermost folder -/

/-- A text lies in a folder of a workspace, and it lies in none with a longer root. -/
def Innermost (folders : List Folder) (text : String) (f : Folder) : Prop :=
  f ∈ folders ∧ ∃ r, f.Holds r text ∧ ∀ g ∈ folders, ∀ s, g.Holds s text → s.length ≤ r.length

theorem innermost_iff : Innermost folders text f ↔ f ∈ folders ∧ f.contains text = true ∧
    ∀ g ∈ folders, g.contains text = true → g.root.length ≤ f.root.length := by
  simp only [Innermost, holds_iff]
  constructor
  · rintro ⟨inside, -, ⟨rfl, contains⟩, longest⟩
    exact ⟨inside, contains, fun g member around => longest g member _ ⟨rfl, around⟩⟩
  · rintro ⟨inside, contains, longest⟩
    refine ⟨inside, _, ⟨rfl, contains⟩, ?_⟩
    rintro g member - ⟨rfl, around⟩
    exact longest g member around

/-- The innermost folders of a text have one root. -/
theorem Innermost.root_eq (left : Innermost folders text f) (right : Innermost folders text g) :
    f.root = g.root := by
  obtain ⟨inside, contains, longest⟩ := innermost_iff.1 left
  obtain ⟨inside', contains', longest'⟩ := innermost_iff.1 right
  have begins := List.prefix_of_prefix_length_le (root_prefix_of_contains contains)
    (root_prefix_of_contains contains') (longest' f inside contains)
  exact String.toList_inj.1 (begins.eq_of_length_le (longest g inside' contains'))

/-- The folder that is found is the innermost one. -/
theorem innermost_of_innermost? (found : innermost? text folders = some g) :
    Innermost folders text g := by
  have inside : g ∈ folders ∧ g.contains text = true := by
    rw [innermost?_eq] at found
    cases candidates : folders.filter (·.contains text) with
    | nil => simp [candidates] at found
    | cons b fs =>
        obtain ⟨best, member, kept, -⟩ := exists_foldl_deeper fs b
        rw [candidates, List.foldl_cons, deeper, kept, Option.some.injEq] at found
        rw [← candidates, found] at member
        obtain ⟨inside, contains⟩ := List.mem_filter.1 member
        exact ⟨inside, contains⟩
  refine innermost_iff.2 ⟨inside.1, inside.2, fun f member contains => ?_⟩
  obtain ⟨best, -, found', -, longer⟩ := exists_innermost member contains
  obtain rfl : best = g := Option.some.inj (found'.symm.trans found)
  exact (prefix_of_size_le (root_prefix_of_contains contains)
    (root_prefix_of_contains inside.2) longer).length_le

/-- A folder is found exactly if the text lies in one. -/
theorem exists_innermost?_iff :
    (∃ g, innermost? text folders = some g) ↔ ∃ f ∈ folders, ∃ r, f.Holds r text := by
  simp only [holds_iff, exists_eq_left]
  constructor
  · rintro ⟨g, found⟩
    obtain ⟨inside, contains, -⟩ := innermost_iff.1 (innermost_of_innermost? found)
    exact ⟨g, inside, contains⟩
  · rintro ⟨f, inside, contains⟩
    obtain ⟨g, -, found, -⟩ := exists_innermost inside contains
    exact ⟨g, found⟩

/-- No two folders of a workspace have one root. -/
def Separate (folders : List Folder) : Prop :=
  folders.Pairwise fun f g => ∀ r, f.HasRoot r → ¬ g.HasRoot r

theorem separate_iff : Separate folders ↔ (folders.map root).Nodup := by
  rw [List.Nodup, List.pairwise_map]
  simp [Separate, hasRoot_iff]

theorem Separate.perm {others : List Folder} (separate : Separate folders)
    (perm : folders.Perm others) : Separate others :=
  separate_iff.2 ((perm.map root).nodup_iff.1 (separate_iff.1 separate))

/-- If no two folders have one root, the innermost folder is found. -/
theorem Separate.innermost?_eq_some_iff (separate : Separate folders) :
    innermost? text folders = some g ↔ Innermost folders text g := by
  refine ⟨innermost_of_innermost?, fun inner => ?_⟩
  obtain ⟨r, holds, -⟩ := inner.2
  obtain ⟨g', found⟩ := exists_innermost?_iff.2 ⟨g, inner.1, r, holds⟩
  have inner' := innermost_of_innermost? found
  have same := List.inj_on_of_nodup_map (separate_iff.1 separate) inner'.1 inner.1
    (inner'.root_eq inner)
  rw [found, same]

/-- **The innermost folder does not depend on the order of the folders.** -/
theorem innermost?_perm {others : List Folder} (separate : Separate folders)
    (perm : folders.Perm others) (text : String) :
    innermost? text folders = innermost? text others := by
  apply Option.ext
  intro g
  rw [separate.innermost?_eq_some_iff, (separate.perm perm).innermost?_eq_some_iff]
  simp only [Innermost, perm.mem_iff]

end Folder

namespace BuildTask

variable {folders : List Folder} {text : String} {scope : TaskScope} {t : BuildTask}
  {b : BoundTask}

/-! ## Scopes -/

/-- What a text means in a workspace: all folders, the workspace, or else the innermost folder
that it lies in. -/
inductive Means (folders : List Folder) : String → TaskScope → Prop
  | everywhere : Means folders "global" .everywhere
  | workspace : Means folders "workspace" .workspace
  | folder {text : String} {f : Folder} : text ≠ "global" → text ≠ "workspace" →
      Folder.Innermost folders text f → Means folders text (.folder f)

/-- A text means something in a workspace: it has one of the two names, or it lies in a
folder. -/
def Kept (folders : List Folder) (text : String) : Prop :=
  text = "global" ∨ text = "workspace" ∨ ∃ f ∈ folders, ∃ r, f.Holds r text

theorem means_of_scope? (found : scope? folders text = some scope) : Means folders text scope := by
  unfold scope? at found
  split_ifs at found with isGlobal isWorkspace
  · obtain rfl := Option.some.inj found
    exact isGlobal ▸ .everywhere
  · obtain rfl := Option.some.inj found
    exact isWorkspace ▸ .workspace
  · obtain ⟨f, inner, rfl⟩ := Option.map_eq_some_iff.1 found
    exact .folder isGlobal isWorkspace (Folder.innermost_of_innermost? inner)

theorem isSome_scope?_iff : (scope? folders text).isSome = true ↔ Kept folders text := by
  unfold scope? Kept
  split_ifs with isGlobal isWorkspace
  · simp [isGlobal]
  · simp [isWorkspace]
  · rw [Option.isSome_map, Option.isSome_iff_exists, Folder.exists_innermost?_iff]
    simp [isGlobal, isWorkspace]

/-! ## Bound tasks -/

/-- A bound task has the fields of a task.  It starts the first word of the command line, the
empty one if there is none, with the other words. -/
structure Carries (t : BuildTask) (b : BoundTask) : Prop where
  definition : b.definition = t.definition
  name : b.name = t.name
  source : b.source = t.source
  process : b.execution.process = t.exec.head?.getD ""
  args : b.execution.args = t.exec.drop 1
  cwd : b.execution.cwd = none
  problemMatchers : b.problemMatchers = t.problemMatchers
  isBackground : b.isBackground = t.isBackground
  group : b.group = t.group

/-- A task is bound to what its scope means. -/
structure Binds (folders : List Folder) (t : BuildTask) (b : BoundTask) : Prop where
  scope : Means folders t.scope b.scope
  carries : Carries t b

theorem bind?_eq (folders : List Folder) (t : BuildTask) :
    t.bind? folders = (scope? folders t.scope).map t.bound := rfl

theorem carries_bound (t : BuildTask) (scope : TaskScope) : Carries t (t.bound scope) where
  definition := rfl
  name := rfl
  source := rfl
  process := List.headD_eq_head?_getD
  args := List.drop_one.symm
  cwd := rfl
  problemMatchers := rfl
  isBackground := rfl
  group := rfl

theorem binds_of_bind? (taken : t.bind? folders = some b) : Binds folders t b := by
  rw [bind?_eq] at taken
  obtain ⟨scope, found, rfl⟩ := Option.map_eq_some_iff.1 taken
  exact ⟨means_of_scope? found, t.carries_bound scope⟩

/-- Taking something for some members of a list selects them in order. -/
theorem forall₂_filter_filterMap {α β : Type} {r : α → β → Prop} {take : α → Option β}
    (p : α → Bool) (taken : ∀ a, p a = (take a).isSome) (related : ∀ a b, take a = some b → r a b)
    (as : List α) : List.Forall₂ r (as.filter p) (as.filterMap take) := by
  induction as with
  | nil => exact .nil
  | cons a as ih =>
      rw [List.filter_cons, List.filterMap_cons, taken]
      cases found : take a with
      | none => simpa using ih
      | some b => simpa using List.Forall₂.cons (related a b found) ih

open scoped Classical in
/-- **Tasks are bound to the innermost folder.**  The bound tasks are those tasks, in order,
whose scope means something in the workspace; each is bound to what its scope means.  If no two
folders have one root, it does not matter in which order they are given. -/
theorem bindAll_selects :
    (∀ (folders : List Folder) (tasks : List BuildTask),
      List.Forall₂ (Binds folders) (tasks.filter fun t => Kept folders t.scope)
        (bindAll folders tasks)) ∧
    ∀ (folders others : List Folder) (tasks : List BuildTask), Folder.Separate folders →
      folders.Perm others → bindAll folders tasks = bindAll others tasks := by
  refine ⟨fun folders tasks => ?_, fun folders others tasks separate perm => ?_⟩
  · refine forall₂_filter_filterMap _ (fun t => ?_) (fun t b => binds_of_bind?) tasks
    rw [bind?_eq, Option.isSome_map, Bool.eq_iff_iff, decide_eq_true_iff, isSome_scope?_iff]
  · refine List.filterMap_congr fun t _ => ?_
    rw [bind?_eq, bind?_eq, scope?, scope?, Folder.innermost?_perm separate perm]

/-- A task below two nested folders, the outer one with a slash at the end of its URL. -/
theorem bindAll_selects_nested :
    let outer : Folder :=
      ⟨⟨"file", some ⟨"", "", none⟩, .segments ["work", "proj", ""], none, none⟩, "proj"⟩
    let inner : Folder :=
      ⟨⟨"file", some ⟨"", "", none⟩, .segments ["work", "proj", "nested"], none, none⟩, "nested"⟩
    let t : BuildTask :=
      { definition := .null, scope := "file:///work/proj/nested/app", exec := ["dub", "test"],
        name := "test", source := "dub" }
    Folder.Separate [outer, inner] ∧ [outer, inner].Perm [inner, outer] ∧
      bindAll [outer, inner] [t] = [t.bound (.folder inner)] ∧
      bindAll [outer, inner] [t] = bindAll [inner, outer] [t] := by
  intro outer inner t
  have separate : Folder.Separate [outer, inner] := Folder.separate_iff.2 (by decide)
  have swapped : [outer, inner].Perm [inner, outer] := .swap _ _ _
  have scope : scope? [outer, inner] t.scope = some (.folder inner) := by decide
  have taken : t.bind? [outer, inner] = some (t.bound (.folder inner)) := by
    rw [bind?_eq, scope, Option.map_some]
  have bound : bindAll [outer, inner] [t] = [t.bound (.folder inner)] := by
    rw [bindAll, List.filterMap_cons_some taken, List.filterMap_nil]
  exact ⟨separate, swapped, bound, bindAll_selects.2 _ _ [t] separate swapped⟩

end BuildTask

end PackageRecipe
