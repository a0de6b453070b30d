import Mathlib
import PackageRecipe.Task.Discovery

/-!
# Discovered tasks and their folders

A discovered task carries the URL of its folder as a text.  This file shows that the folder is
found again from that text, so that none of the discovered tasks is dropped.

## Main Definitions

* `BuildTask.bound` — a task with its scope
* `BuildTask.BoundNear` — a discovered task is bound to a folder with the root of its own

## Design Notes

Folders may be nested, their names may begin alike, and several may have one root.  All folders
that contain a text have roots that begin it, so of two of them one root begins the other, and
the longest root that begins the URL of a folder is the root of that folder
(`Folder.root_eq_of_longest`): what follows it are slashes, and no root ends with one.
-/

namespace PackageRecipe

namespace Folder

variable {f g : Folder} {folders : List Folder} {text : String}

/-! ## Roots -/

/-- The URL of a folder is its root and slashes. -/
theorem exists_slashes (f : Folder) : ∃ slashes,
    f.url.render.toList = f.root.toList ++ slashes ∧ ∀ c ∈ slashes, c = '/' := by
  refine ⟨f.url.render.toList.rtakeWhile (· == '/'), ?_, fun c member => ?_⟩
  · rw [root, String.toList_ofList]
    exact List.rdropWhile_append_rtakeWhile.symm
  · simpa using List.mem_rtakeWhile_imp member

/-- No root ends with a slash. -/
theorem getLast?_root (f : Folder) : f.root.toList.getLast? ≠ some '/' := by
  rw [root, String.toList_ofList]
  change (f.url.render.toList.rdropWhile (· == '/')).getLast? ≠ some '/'
  intro last
  obtain ⟨nonempty, same⟩ := List.mem_getLast?_eq_getLast last
  have noSlash := List.rdropWhile_last_not (· == '/') f.url.render.toList nonempty
  simp [← same] at noSlash

/-- A folder contains what continues its root with a slash. -/
theorem contains_iff : f.contains text = true ↔
    ∃ rest, text.toList = f.root.toList ++ rest ∧ ∀ c ∈ rest.head?, c = '/' := by
  rw [contains, Bool.and_eq_true, List.isPrefixOf_iff_prefix]
  constructor
  · rintro ⟨⟨rest, whole⟩, continued⟩
    rw [← whole, ← String.length_toList, List.drop_left] at continued
    refine ⟨rest, whole.symm, fun c first => ?_⟩
    cases rest with
    | nil => simp at first
    | cons d rest =>
        obtain rfl : d = c := by simpa using first
        simpa using continued
  · rintro ⟨rest, whole, continued⟩
    rw [whole, ← String.length_toList, List.drop_left]
    refine ⟨List.prefix_append _ _, ?_⟩
    cases rest with
    | nil => rfl
    | cons d rest => simpa using continued d rfl

/-- A folder contains itself. -/
theorem contains_render (f : Folder) : f.contains f.url.render = true := by
  obtain ⟨slashes, whole, all⟩ := f.exists_slashes
  exact contains_iff.2 ⟨slashes, whole, fun c first => all c (List.mem_of_mem_head? first)⟩

/-- Of two texts that begin a third one, the one without more bytes begins the other. -/
theorem prefix_of_size_le {s r text : String} (first : s.toList <+: text.toList)
    (second : r.toList <+: text.toList) (size : s.utf8ByteSize ≤ r.utf8ByteSize) :
    s.toList <+: r.toList := by
  rcases List.prefix_or_prefix_of_prefix first second with short | ⟨more, same⟩
  · exact short
  · -- What the first text has more takes no bytes.
    have split : s = r ++ String.ofList more := by
      rw [← String.toList_inj, String.toList_append, String.toList_ofList, same]
    rw [split, String.utf8ByteSize_append] at size
    have nothing : String.ofList more = "" := String.utf8ByteSize_eq_zero_iff.1 (by omega)
    rw [split, nothing, String.append_empty]

/-- **A folder that contains another one and has no shorter root has the same root.** -/
theorem root_eq_of_longest (around : g.contains f.url.render = true)
    (longer : f.root.utf8ByteSize ≤ g.root.utf8ByteSize) : g.root = f.root := by
  obtain ⟨rest, whole, -⟩ := contains_iff.1 around
  obtain ⟨slashes, own, all⟩ := f.exists_slashes
  have outer : g.root.toList <+: f.url.render.toList := ⟨rest, whole.symm⟩
  have inner : f.root.toList <+: f.url.render.toList := ⟨slashes, own.symm⟩
  obtain ⟨more, same⟩ := prefix_of_size_le inner outer longer
  -- What the root of `g` has more are slashes, and it does not end with one.
  have slashed : more <+: slashes := by
    refine ⟨rest, ?_⟩
    rw [own, ← same, List.append_assoc] at whole
    exact (List.append_cancel_left whole).symm
  rcases List.eq_nil_or_concat more with rfl | ⟨first, c, rfl⟩
  · rw [← String.toList_inj, ← same, List.append_nil]
  · obtain rfl := all c (slashed.subset (by simp))
    exact absurd (by simp [← same]) g.getLast?_root

/-! ## The innermost folder -/

/-- Of two folders the one with the longer root, the second if they are alike. -/
def deeper (best : Option Folder) (f : Folder) : Option Folder :=
  match best with
  | none => some f
  | some b => if b.root.utf8ByteSize ≤ f.root.utf8ByteSize then some f else some b

theorem innermost?_eq (text : String) (folders : List Folder) :
    innermost? text folders = (folders.filter (·.contains text)).foldl deeper none :=
  rfl

/-- Neither of two folders has a longer root than the one that is kept. -/
theorem exists_deeper (best : Option Folder) (f : Folder) :
    ∃ g, deeper best f = some g ∧ (g = f ∨ best = some g) ∧
      ∀ b, b = f ∨ best = some b → b.root.utf8ByteSize ≤ g.root.utf8ByteSize := by
  cases best with
  | none => exact ⟨f, rfl, .inl rfl, by simp⟩
  | some b =>
      rw [deeper]
      split_ifs with longer
      · exact ⟨f, rfl, .inl rfl, by simpa using longer⟩
      · exact ⟨b, rfl, .inr rfl, by simpa using Nat.le_of_lt (Nat.not_le.1 longer)⟩

/-- Of several folders one with the longest root is kept. -/
theorem exists_foldl_deeper (fs : List Folder) (b : Folder) :
    ∃ g ∈ b :: fs, fs.foldl deeper (some b) = some g ∧
      ∀ f ∈ b :: fs, f.root.utf8ByteSize ≤ g.root.utf8ByteSize := by
  induction fs generalizing b with
  | nil => exact ⟨b, List.mem_cons_self, rfl, by simp⟩
  | cons f fs ih =>
      obtain ⟨best, kept, known, longest⟩ := exists_deeper (some b) f
      obtain ⟨g, member, found, all⟩ := ih best
      obtain ⟨first, later⟩ := List.forall_mem_cons.1 all
      refine ⟨g, ?_, by rw [List.foldl_cons, kept, found], ?_⟩
      · rcases List.mem_cons.1 member with rfl | member
        · rcases known with rfl | same
          · simp
          · simp [Option.some.inj same]
        · simp [member]
      · refine List.forall_mem_cons.2 ⟨(longest b (.inr rfl)).trans first, ?_⟩
        exact List.forall_mem_cons.2 ⟨(longest f (.inl rfl)).trans first, later⟩

/-- The innermost folder of a text contains it, and no folder that does has a longer root. -/
theorem exists_innermost (inside : f ∈ folders) (contains : f.contains text = true) :
    ∃ g ∈ folders, innermost? text folders = some g ∧ g.contains text = true ∧
      f.root.utf8ByteSize ≤ g.root.utf8ByteSize := by
  have candidate : f ∈ folders.filter (·.contains text) := List.mem_filter.2 ⟨inside, contains⟩
  rw [innermost?_eq]
  cases candidates : folders.filter (·.contains text) with
  | nil => simp [candidates] at candidate
  | cons b fs =>
      obtain ⟨g, member, found, all⟩ := exists_foldl_deeper fs b
      rw [← candidates] at member all
      obtain ⟨known, around⟩ := List.mem_filter.1 member
      exact ⟨g, known, found, around, all f candidate⟩

end Folder

/-! ## Binding -/

/-- What each member of a list is taken to stands in its place. -/
theorem forall₂_filterMap {α β : Type} {r : α → β → Prop} {take : α → Option β} {as : List α}
    (each : ∀ a ∈ as, ∃ b, take a = some b ∧ r a b) : List.Forall₂ r as (as.filterMap take) := by
  induction as with
  | nil => exact .nil
  | cons a as ih =>
      obtain ⟨here, later⟩ := List.forall_mem_cons.1 each
      obtain ⟨b, taken, related⟩ := here
      rw [List.filterMap_cons_some taken]
      exact .cons related (ih later)

/-- A URL is not the name of a scope, since there is a colon in it. -/
theorem Url.render_ne_of_noColon (url : Url) {name : String} (noColon : ':' ∉ name.toList) :
    url.render ≠ name := by
  rintro rfl
  exact noColon (by simp [Url.render])

namespace BuildTask

variable {root : FileTree} {folders : List Folder} {program : String} {f : Folder} {t : BuildTask}

/-- A task with its scope. -/
def bound (t : BuildTask) (scope : TaskScope) : BoundTask where
  definition := t.definition
  scope := scope
  name := t.name
  source := t.source
  execution := executionOf t.exec
  problemMatchers := t.problemMatchers
  isBackground := t.isBackground
  group := t.group

/-- The URL of a folder of the workspace means a folder with the same root. -/
theorem exists_scope (inside : f ∈ folders) :
    ∃ g ∈ folders, g.root = f.root ∧ scope? folders f.url.render = some (.folder g) := by
  obtain ⟨g, member, found, around, longer⟩ := Folder.exists_innermost inside f.contains_render
  refine ⟨g, member, Folder.root_eq_of_longest around longer, ?_⟩
  rw [scope?, if_neg (f.url.render_ne_of_noColon (by decide)),
    if_neg (f.url.render_ne_of_noColon (by decide)), found, Option.map_some]

/-- A task of a folder applies there. -/
theorem scope_of_mem_ofFolder (member : t ∈ ofFolder root program f) : t.scope = f.url.render := by
  unfold ofFolder at member
  split at member
  · simp at member
  · obtain ⟨place, -, made⟩ := List.mem_flatMap.1 member
    obtain ⟨⟨action, group, d⟩, -, rfl⟩ := List.mem_map.1 made
    rfl

/-- A task that was discovered in a folder is bound to one with the same root. -/
def BoundNear (root : FileTree) (folders : List Folder) (program : String) (t : BuildTask)
    (b : BoundTask) : Prop :=
  ∃ f ∈ folders, t ∈ ofFolder root program f ∧
    ∃ g ∈ folders, g.root = f.root ∧ b = t.bound (.folder g)

/-- A discovered task is bound. -/
theorem exists_bind (member : t ∈ discover root folders program) :
    ∃ b, t.bind? folders = some b ∧ BoundNear root folders program t b := by
  obtain ⟨f, inside, made⟩ := List.mem_flatMap.1 member
  obtain ⟨g, known, same, found⟩ := exists_scope inside
  refine ⟨t.bound (.folder g), ?_, f, inside, made, g, known, same, rfl⟩
  rw [bind?, scope_of_mem_ofFolder made, found, Option.map_some]
  rfl

/-- **No discovered task is dropped.**  Binding gives one task for each discovered task, in
order, and binds it to a folder of the workspace with the root of the folder that the task was
discovered in. -/
theorem bindAll_discover (root : FileTree) (folders : List Folder) (program : String) :
    List.Forall₂ (BoundNear root folders program) (discover root folders program)
      (bindAll folders (discover root folders program)) :=
  forall₂_filterMap fun _ member => exists_bind member

end BuildTask

end PackageRecipe
