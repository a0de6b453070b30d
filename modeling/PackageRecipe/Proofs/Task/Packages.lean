import PackageRecipe.Proofs.FileTree
import PackageRecipe.Proofs.Task.Storage

/-!
# The packages of a workspace

This file says which tasks are discovered: four for each package, and a package is a folder of
the workspace, or a folder in one that is not hidden, that directly holds a recipe.

## Main Definitions

* `BuildTask.Hidden` — a name that is a text with a dot in front
* `BuildTask.IsPackage` — the way from a folder of the workspace to a package
* `BuildTask.Runs` — a task that does a job with a package
* `BuildTask.Listing` — the tasks of one folder of the workspace

## Design Notes

A package is known by the names that lead to it from the folder of the workspace, of which there
is one at most.  The walk goes one level further than the packages, since it finds recipes and
not folders; that it prunes files as well as folders does no harm because no recipe is hidden
(`mem_packages_iff`).  The path of a package is not compared as bytes: it begins at the root of
the tree and leads to the package.

Names need not be texts, but what a task says is text.  So a definition holds the path as it is
displayed, which is the path itself only if that is a text, and two tasks have one name if their
packages are displayed alike (`taskName_eq_iff`).
-/

namespace PackageRecipe

namespace BuildTask

open FileTree RawText

variable {root : FileTree} {entries : List (RawText × FileTree)} {path name : RawText}
  {program : String} {f : Folder} {names rel : List RawText} {dirs : List (List RawText)}
  {folders : List Folder} {t : BuildTask}

/-! ## Packages -/

/-- A folder directly holds a recipe: a file with one of the two names. -/
def HoldsRecipe (entries : List (RawText × FileTree)) : Prop :=
  ∃ name content, (name = ofString "dub.sdl" ∨ name = ofString "dub.json") ∧
    (name, FileTree.file content) ∈ entries

/-- A hidden name is a text with a dot in front. -/
def Hidden (name : RawText) : Prop :=
  ∃ text : String, name = ofString text ∧ text.toList.head? = some '.'

/-- What leads from a folder to a package: nothing, or the name of a folder in it that is not
hidden. -/
inductive IsPackage (entries : List (RawText × FileTree)) : List RawText → Prop
  | here : HoldsRecipe entries → IsPackage entries []
  | below {name : RawText} {inside : List (RawText × FileTree)} :
      (name, FileTree.folder inside) ∈ entries → ¬ Hidden name → HoldsRecipe inside →
      IsPackage entries [name]

theorem isHidden_iff : isHidden name = true ↔ Hidden name := by
  simp [isHidden, Option.any_eq_true, text?_eq_some_iff, Hidden]

theorem isHidden_eq_false_iff : isHidden name = false ↔ ¬ Hidden name := by
  rw [← isHidden_iff, Bool.not_eq_true]

theorem isRecipeName_iff :
    isRecipeName name = true ↔ name = ofString "dub.sdl" ∨ name = ofString "dub.json" := by
  simp only [isRecipeName, Option.any_eq_true, text?_eq_some_iff, List.contains_eq_mem, recipeNames,
    List.mem_cons, List.not_mem_nil, or_false, decide_eq_true_eq]
  constructor
  · rintro ⟨text, rfl, rfl | rfl⟩
    · exact .inl rfl
    · exact .inr rfl
  · rintro (rfl | rfl)
    · exact ⟨_, rfl, .inl rfl⟩
    · exact ⟨_, rfl, .inr rfl⟩

theorem isHidden_of_isRecipeName (recipe : isRecipeName name = true) : isHidden name = false := by
  obtain rfl | rfl := isRecipeName_iff.1 recipe <;> decide

/-- What was found gives the folder of a package if it is a recipe in that folder. -/
theorem packageOf?_eq_some_iff {found : FileTree} : packageOf? (names, found) = some rel ↔
    ∃ recipe, isRecipeName recipe = true ∧ ∃ content, found = .file content ∧
      names = rel ++ [recipe] := by
  constructor
  · intro package
    dsimp only [packageOf?] at package
    split_ifs at package with recipe
    obtain rfl := Option.some.inj package
    cases found with
    | folder entries => simp [isFile, content?] at recipe
    | file content =>
        rcases List.eq_nil_or_concat names with rfl | ⟨front, last, rfl⟩
        · have empty : isRecipeName (ofString "") = false := by decide
          simp [empty] at recipe
        · exact ⟨last, by simpa [isFile, content?] using recipe, content, rfl, by simp⟩
  · rintro ⟨recipe, known, content, rfl, rfl⟩
    simp [packageOf?, isFile, content?, known]

/-- **The recipes that the walk finds are those of the packages.** -/
theorem mem_packages_iff :
    rel ∈ ((FileTree.folder entries).walk (!isHidden ·) searchDepth).filterMap packageOf? ↔
      IsPackage entries rel := by
  simp only [List.mem_filterMap, Prod.exists, packageOf?_eq_some_iff, mem_walk_iff]
  constructor
  · rintro ⟨-, -, ⟨short, kept, reached⟩, recipe, known, content, rfl, rfl⟩
    rw [isRecipeName_iff] at known
    match rel with
    | [] => exact .here ⟨recipe, content, known, reaches_entry_iff.1 reached⟩
    | [name] =>
        obtain ⟨⟨_, inner⟩, inside, rfl, rest⟩ := reaches_cons_iff.1 reached
        cases inner with
        | file text => simp [reaches_cons_iff, entries?] at rest
        | folder below =>
            have shown := isHidden_eq_false_iff.1 (by simpa using kept _ List.mem_cons_self)
            exact .below inside shown ⟨recipe, content, known, reaches_entry_iff.1 rest⟩
    | _ :: _ :: _ => simp [searchDepth] at short
  · have visible {name : RawText}
        (recipe : name = ofString "dub.sdl" ∨ name = ofString "dub.json") :
        isRecipeName name = true ∧ (!isHidden name) = true := by
      rw [← isRecipeName_iff] at recipe
      simp [recipe, isHidden_of_isRecipeName recipe]
    rintro (⟨recipe, content, known, member⟩ | ⟨inside, shown, recipe, content, known, member⟩)
    · obtain ⟨recipeName, kept⟩ := visible known
      exact ⟨_, _, ⟨by simp [searchDepth], by simpa using kept, .step member (.here _)⟩, recipe,
        recipeName, content, rfl, rfl⟩
    · obtain ⟨recipeName, kept⟩ := visible known
      have kept' := isHidden_eq_false_iff.2 shown
      exact ⟨_, _, ⟨by simp [searchDepth], by simpa [kept'] using kept,
        .step inside (.step member (.here _))⟩, recipe, recipeName, content, rfl, rfl⟩

/-! ## The order of packages -/

theorem mem_insertNames_iff : rel ∈ insertNames names dirs ↔ rel = names ∨ rel ∈ dirs := by
  induction dirs with
  | nil => simp [insertNames]
  | cons others dirs ih =>
      rw [insertNames]
      split_ifs with same
      · simp [same]
      · rw [List.mem_cons]
      · rw [List.mem_cons, ih, List.mem_cons, or_left_comm]

theorem pairwise_insertNames (ordered : dirs.Pairwise (· < ·)) :
    (insertNames names dirs).Pairwise (· < ·) := by
  induction dirs with
  | nil => exact List.pairwise_singleton _ _
  | cons others dirs ih =>
      obtain ⟨first, rest⟩ := List.pairwise_cons.1 ordered
      rw [insertNames]
      split_ifs with same before
      · exact ordered
      · refine List.pairwise_cons.2 ⟨?_, ordered⟩
        exact List.forall_mem_cons.2
          ⟨before, fun rel member => List.lt_trans before (first rel member)⟩
      · refine List.pairwise_cons.2 ⟨fun rel member => ?_, ih rest⟩
        rcases mem_insertNames_iff.1 member with rfl | member
        · -- What is neither the same nor in front is behind.
          by_contra behind
          exact same (List.le_antisymm (List.not_lt.1 behind) (List.not_lt.1 before))
        · exact first rel member

theorem placeOf_singleton (path name : RawText) : placeOf path [name] = ⟨path.join name, name⟩ := by
  rw [placeOf, ofParts_singleton]
  exact List.cons_ne_nil _ _

/-- **The packages at a path stand in the order of their paths**, each of them once. -/
theorem exists_packagesAt (reached : root.at? path = some (.folder entries)) :
    ∃ dirs : List (List RawText), packagesAt root path = dirs.map (placeOf path) ∧
      dirs.Pairwise (· < ·) ∧ ∀ rel, rel ∈ dirs ↔ IsPackage entries rel := by
  have all (found : List (List RawText)) : (found.foldr insertNames []).Pairwise (· < ·) ∧
      ∀ rel, rel ∈ found.foldr insertNames [] ↔ rel ∈ found := by
    induction found with
    | nil => simp
    | cons names found ih =>
        rw [List.foldr_cons]
        refine ⟨pairwise_insertNames ih.1, fun rel => ?_⟩
        rw [mem_insertNames_iff, ih.2, List.mem_cons]
  obtain ⟨ordered, members⟩ :=
    all (((FileTree.folder entries).walk (!isHidden ·) searchDepth).filterMap packageOf?)
  refine ⟨_, ?_, ordered, fun rel => (members rel).trans mem_packages_iff⟩
  rw [packagesAt, reached]

/-- The path of a package leads to it. -/
theorem names?_placeOf (proper : (FileTree.folder entries).Proper)
    (named : root.names? path = some names) (reached : root.at? path = some (.folder entries))
    (package : IsPackage entries rel) :
    root.names? (placeOf path rel).path = some (names ++ rel) := by
  cases package with
  | here _ =>
      rw [List.append_nil]
      exact names?_trimmed named reached
  | below member _ _ =>
      rw [placeOf_singleton]
      exact names?_join (proper.isName member) named reached (proper.lookup member)

theorem isAbsolute_placeOf (absolute : path.IsAbsolute) (rel : List RawText) :
    (placeOf path rel).path.IsAbsolute := by
  cases rel with
  | nil => exact absolute.trimmed
  | cons name rel => exact absolute.join _

theorem isText_placeOf (isText : path.IsText) (texts : ∀ n ∈ rel, n.IsText) :
    (placeOf path rel).path.IsText := by
  cases rel with
  | nil => exact isText.trimmed
  | cons name rel => exact isText.join (.ofParts texts)

/-! ## The tasks of a package -/

/-- What can be done with a package, in the order of the tasks. -/
def jobs : List String := ["build", "rebuild", "test", "run"]

/-- The definition of the task that does a job with the package at a path. -/
def jobDefinition (job path : String) : TaskDefinition where
  root := some path
  force := job = "rebuild"
  test := job = "test"
  run := job = "run"

/-- The name of the task that does a job with the package that names lead to. -/
def taskName (job : String) : List RawText → String
  | [] => job
  | names => job ++ " (" ++ (ofParts names).display ++ ")"

theorem taskName_nil (job : String) : taskName job [] = job := rfl

theorem taskName_singleton (job : String) (name : RawText) :
    taskName job [name] = job ++ " (" ++ name.display ++ ")" := by
  rw [taskName, ofParts_singleton]
  exact List.cons_ne_nil _ _

theorem variants_eq (path : String) : variants path =
    jobs.map fun job => (job, TaskGroup.ofName? job, jobDefinition job path) := by
  simp [variants, jobs, jobDefinition, TaskGroup.ofName?, TaskGroup.name]

/-- A task does a job with the package that names lead to from a folder of the workspace, to
which other names lead from the root of the tree.  The definition that is stored with it is that
of the job, and the task has its command.  The root of the definition is how a path from the
root of the tree that leads to the package is displayed: the path itself if the path of the
folder and the names are texts. -/
structure Runs (root : FileTree) (program : String) (f : Folder) (names rel : List RawText)
    (job : String) (t : BuildTask) : Prop where
  definition : ∃ path : RawText, path.IsAbsolute ∧ root.names? path = some (names ++ rel) ∧
    ((∀ p ∈ f.url.filePath?, p.IsText) → (∀ n ∈ rel, n.IsText) → ofString path.display = path) ∧
    TaskDefinition.ofJson? t.definition = some (jobDefinition job path.display) ∧
    t.exec = (jobDefinition job path.display).command program
  name : t.name = taskName job rel
  scope : t.scope = f.url.render
  isBackground : t.isBackground = false
  source : t.source = "dub"
  group : t.group = TaskGroup.ofName? job
  problemMatchers : t.problemMatchers = ["$dmd"]

/-- The path of a folder begins at the root. -/
theorem isAbsolute_of_filePath? {url : Url} (named : url.filePath? = some path) :
    path.IsAbsolute := by
  obtain ⟨names, segments, local'⟩ := Option.bind_eq_some_iff.1 named
  split_ifs at local'
  obtain rfl := Option.some.inj local'
  have absolute : RawText.IsAbsolute
      ⟨names.flatMap fun name => Url.Percent.decode ('/' :: name.toList)⟩ := by
    cases names with
    | nil =>
        unfold Url.segments? at segments
        split at segments <;> simp at segments
    | cons name names =>
        rw [List.flatMap_cons, Url.Percent.decode_cons_of_ne (by decide)]
        rfl
  unfold Url.filePath?.closeDrive
  split
  · split_ifs
    · exact absolute.append _
    · exact absolute
  · exact absolute

/-- The tasks of a package do all jobs with it, in order. -/
theorem forall₂_ofPackage (proper : (FileTree.folder entries).Proper)
    (filePath : f.url.filePath? = some path) (named : root.names? path = some names)
    (reached : root.at? path = some (.folder entries)) (package : IsPackage entries rel) :
    List.Forall₂ (Runs root program f names rel) jobs (ofPackage program f (placeOf path rel)) := by
  rw [ofPackage, variants_eq, List.map_map, List.forall₂_map_right_iff, List.forall₂_same]
  intro job _
  refine ⟨⟨_, isAbsolute_placeOf (isAbsolute_of_filePath? filePath) rel,
    names?_placeOf proper named reached package, fun isText texts => ?_,
    TaskDefinition.ofJson?_stored _, rfl⟩, ?_, rfl, rfl, rfl, rfl, rfl⟩
  · exact isText_iff.1 (isText_placeOf (isText path filePath) texts)
  · cases package with
    | here _ => rfl
    | below member _ _ =>
        have nonempty := (proper.isName member).ne_empty
        simp [placeOf_singleton, taskName_singleton, nonempty]

/-- **Tasks have one name** exactly if they do one job and their packages are displayed alike. -/
theorem taskName_eq_iff {job other : String} {others : List RawText} (left : job ∈ jobs)
    (right : other ∈ jobs) (package : IsPackage entries rel)
    (package' : IsPackage entries others) : taskName job rel = taskName other others ↔
      job = other ∧ rel.map display = others.map display := by
  -- No job has a blank in its name, so the first blank ends it.
  have noBlank : ∀ job ∈ jobs, ' ' ∉ job.toList := by decide
  have spelled (job : String) (name : RawText) : (taskName job [name]).toList =
      job.toList ++ ' ' :: ('(' :: name.display.toList ++ [')']) := by
    simp [taskName_singleton]
  have first {z : List Char} (x : List Char) (free : ' ' ∉ x) :
      (x ++ ' ' :: z).takeWhile (· != ' ') = x := by
    rw [List.takeWhile_append_of_pos fun c member =>
      bne_iff_ne.2 (ne_of_mem_of_not_mem member free)]
    simp
  have blank (job : String) (name : RawText) : ' ' ∈ (taskName job [name]).toList := by
    simp [spelled]
  cases package with
  | here _ =>
      cases package' with
      | here _ => simp [taskName_nil]
      | below _ _ _ =>
          rw [taskName_nil]
          refine iff_of_false (fun same => ?_) (by simp)
          exact absurd (same ▸ blank _ _) (noBlank job left)
  | below _ _ _ =>
      cases package' with
      | here _ =>
          rw [taskName_nil]
          refine iff_of_false (fun same => ?_) (by simp)
          exact absurd (same ▸ blank _ _) (noBlank other right)
      | below _ _ _ =>
          refine ⟨fun same => ?_, ?_⟩
          · replace same := congrArg String.toList same
            rw [spelled, spelled] at same
            have jobs : job.toList = other.toList := by
              rw [← first _ (noBlank job left), same, first _ (noBlank other right)]
            rw [jobs] at same
            refine ⟨String.toList_inj.1 jobs, ?_⟩
            simpa [String.toList_inj] using same
          · rintro ⟨rfl, same⟩
            rw [taskName_singleton, taskName_singleton, List.singleton_inj.1 same]

/-! ## The tasks of a workspace -/

/-- A folder of the workspace is a folder of the tree, which names lead to. -/
def LeadsTo (root : FileTree) (f : Folder) (names : List RawText)
    (entries : List (RawText × FileTree)) : Prop :=
  ∃ path, f.url.filePath? = some path ∧ root.names? path = some names ∧
    root.at? path = some (.folder entries)

/-- The tasks of a folder of the workspace, for the packages at and in it. -/
structure Listing (root : FileTree) (program : String) (f : Folder) (names : List RawText)
    (entries : List (RawText × FileTree)) (dirs : List (List RawText)) (ts : List BuildTask) :
    Prop where
  /-- Packages stand in the order of their paths, each of them once. -/
  ordered : dirs.Pairwise (· < ·)
  packages : ∀ rel, rel ∈ dirs ↔ IsPackage entries rel
  /-- For each package in turn there is a task for each job. -/
  tasks : List.Forall₂ (fun p t => Runs root program f names p.1 p.2 t) (dirs ×ˢ jobs) ts
  /-- No two tasks have one name exactly if no two packages are displayed alike. -/
  distinct : (ts.map (·.name)).Nodup ↔ (dirs.map fun rel => rel.map display).Nodup
  texts : (∀ rel ∈ dirs, ∀ n ∈ rel, n.IsText) → (ts.map (·.name)).Nodup

/-- Lists that are related part by part are related. -/
theorem forall₂_flatMap {α β γ : Type} {r : β → γ → Prop} {as : List α} {left : α → List β}
    {right : α → List γ} (each : ∀ a ∈ as, List.Forall₂ r (left a) (right a)) :
    List.Forall₂ r (as.flatMap left) (as.flatMap right) := by
  induction as with
  | nil => exact .nil
  | cons a as ih =>
      obtain ⟨here, later⟩ := List.forall_mem_cons.1 each
      exact List.rel_append here (ih later)

/-- Names of packages that are texts are displayed differently. -/
theorem nodup_map_display (ordered : dirs.Pairwise (· < ·))
    (texts : ∀ rel ∈ dirs, ∀ n ∈ rel, n.IsText) : (dirs.map fun rel => rel.map display).Nodup := by
  refine List.Nodup.map_on (fun rel left others right same => ?_) (ordered.imp fun before => ?_)
  · have back {rel : List RawText} (texts : ∀ n ∈ rel, n.IsText) :
        (rel.map display).map ofString = rel := by
      have each : ∀ n ∈ rel, (ofString ∘ display) n = id n := fun n member =>
        isText_iff.1 (texts n member)
      rw [List.map_map, List.map_congr_left each, List.map_id]
    rw [← back (texts rel left), same, back (texts others right)]
  · rintro rfl
    exact List.lt_irrefl _ before

theorem nodup_taskNames (ordered : dirs.Pairwise (· < ·))
    (packages : ∀ rel ∈ dirs, IsPackage entries rel) :
    ((dirs ×ˢ jobs).map fun p => taskName p.2 p.1).Nodup ↔
      (dirs.map fun rel => rel.map display).Nodup := by
  have each : dirs.Nodup := ordered.imp fun before => by
    rintro rfl
    exact List.lt_irrefl _ before
  have pairs : (dirs ×ˢ jobs).Nodup := each.product (by decide)
  rw [List.nodup_map_iff_inj_on pairs, List.nodup_map_iff_inj_on each]
  constructor
  · intro inj rel left others right same
    have built : "build" ∈ jobs := by decide
    have one := taskName_eq_iff built built (packages rel left) (packages others right)
    exact congrArg Prod.fst (inj (rel, "build") (List.mem_product.2 ⟨left, built⟩) (others, "build")
      (List.mem_product.2 ⟨right, built⟩) (one.2 ⟨rfl, same⟩))
  · rintro inj ⟨rel, job⟩ left ⟨others, other⟩ right same
    obtain ⟨package, known⟩ := List.mem_product.1 left
    obtain ⟨package', known'⟩ := List.mem_product.1 right
    obtain ⟨rfl, alike⟩ :=
      (taskName_eq_iff known known' (packages rel package) (packages others package')).1 same
    rw [inj rel package others package' alike]

theorem exists_listing (proper : root.Proper) (leads : LeadsTo root f names entries) :
    ∃ dirs, Listing root program f names entries dirs (ofFolder root program f) := by
  obtain ⟨path, filePath, named, reached⟩ := leads
  have properHere := proper.at? reached
  obtain ⟨dirs, listed, ordered, packages⟩ := exists_packagesAt reached
  have parts : ofFolder root program f =
      dirs.flatMap fun rel => ofPackage program f (placeOf path rel) := by
    rw [ofFolder, filePath]
    simp only [listed, List.flatMap_map]
  have tasks : List.Forall₂ (fun p t => Runs root program f names p.1 p.2 t) (dirs ×ˢ jobs)
      (ofFolder root program f) := by
    rw [parts]
    refine forall₂_flatMap fun rel member => ?_
    rw [List.forall₂_map_left_iff]
    exact forall₂_ofPackage properHere filePath named reached ((packages rel).1 member)
  have taskNames : (dirs ×ˢ jobs).map (fun p => taskName p.2 p.1) =
      (ofFolder root program f).map (·.name) := by
    rw [← List.forall₂_eq_eq_eq, List.forall₂_map_left_iff, List.forall₂_map_right_iff]
    exact tasks.imp fun p t runs => runs.name.symm
  have distinct := nodup_taskNames ordered fun rel member => (packages rel).1 member
  rw [taskNames] at distinct
  exact ⟨dirs, ordered, packages, tasks, distinct,
    fun texts => distinct.2 (nodup_map_display ordered texts)⟩

/-- **Discovery enumerates the packages.**  If all folders of a workspace are folders of the
tree, the discovered tasks are those of the folders in turn. -/
theorem discover_enumerates (proper : root.Proper)
    (directories : ∀ f ∈ folders, ∃ names entries, LeadsTo root f names entries)
    (program : String) :
    ∃ parts : List (List BuildTask), discover root folders program = parts.flatten ∧
      List.Forall₂ (fun f ts => ∃ names entries dirs, LeadsTo root f names entries ∧
        Listing root program f names entries dirs ts) folders parts := by
  refine ⟨folders.map (ofFolder root program), List.flatMap_def, ?_⟩
  rw [List.forall₂_map_right_iff, List.forall₂_same]
  intro f inside
  obtain ⟨names, entries, leads⟩ := directories f inside
  obtain ⟨dirs, listing⟩ := exists_listing proper leads
  exact ⟨names, entries, dirs, leads, listing⟩

/-- A folder with both recipes, a package in it, a hidden one, and a folder without a recipe. -/
theorem discover_enumerates_nested :
    let inside : List (RawText × FileTree) :=
      [("notes", .folder []), ("app", .folder [("dub.json", .file "")]), ("dub.sdl", .file ""),
        ("dub.json", .file ""), (".dub", .folder [("dub.sdl", .file "")])]
    let tree : FileTree := .folder [("w", .folder inside)]
    let f : Folder := ⟨⟨"file", some ⟨"", "", none⟩, .segments ["w", ""], none, none⟩, "w"⟩
    tree.Proper ∧ LeadsTo tree f [ofString "w"] inside ∧
      ∃ parts : List (List BuildTask), discover tree [f] "dub" = parts.flatten ∧
        List.Forall₂ (fun f ts => ∃ names entries dirs, LeadsTo tree f names entries ∧
          Listing tree "dub" f names entries dirs ts) [f] parts := by
  intro inside tree f
  have file (name : RawText) (isName : IsName name) : (FileTree.folder [(name, .file "")]).Proper :=
    .folder (by simpa using isName) (by simp) (by simpa using .file "")
  have properInside : (FileTree.folder inside).Proper := by
    refine .folder (by decide) (by decide) ?_
    simp only [inside, List.forall_mem_cons, List.not_mem_nil, false_implies, implies_true,
      and_true]
    exact ⟨.folder (by simp) (by simp) (by simp), file _ (by decide), .file "", .file "",
      file _ (by decide)⟩
  have proper : tree.Proper := .folder (by decide) (by simp) (by simpa using properInside)
  have leads : LeadsTo tree f [ofString "w"] inside := ⟨"/w/", by decide, by decide, rfl⟩
  refine ⟨proper, leads, discover_enumerates proper (fun g member => ?_) "dub"⟩
  obtain rfl := List.mem_singleton.1 member
  exact ⟨_, _, leads⟩

/-- Names that are no texts: a folder with a dot in front counts as a package, the tasks of two
packages have the same names, and no root of a definition leads to anything. -/
theorem discover_misnames :
    let package : FileTree := .folder [("dub.sdl", .file "")]
    let inside : List (RawText × FileTree) :=
      [(⟨[0x2E, 0xFF]⟩, package), (⟨[0x61, 0xFE]⟩, package), (⟨[0x61, 0xFF]⟩, package)]
    let tree : FileTree := .folder [("w", .folder inside)]
    let f : Folder := ⟨⟨"file", some ⟨"", "", none⟩, .segments ["w", ""], none, none⟩, "w"⟩
    let tasks := discover tree [f] "dub"
    tree.Proper ∧ LeadsTo tree f [ofString "w"] inside ∧
      tasks.map (·.name) =
        ["build (.\ufffd)", "rebuild (.\ufffd)", "test (.\ufffd)", "run (.\ufffd)",
          "build (a\ufffd)", "rebuild (a\ufffd)", "test (a\ufffd)", "run (a\ufffd)",
          "build (a\ufffd)", "rebuild (a\ufffd)", "test (a\ufffd)", "run (a\ufffd)"] ∧
      ¬ (tasks.map (·.name)).Nodup ∧
      ∀ t ∈ tasks, ∃ d path, TaskDefinition.ofJson? t.definition = some d ∧
        d.root = some path ∧ tree.at? path = none := by
  intro package inside tree f tasks
  have recipe : package.Proper := .folder (by decide) (by decide) (by simpa using .file "")
  have properInside : (FileTree.folder inside).Proper :=
    .folder (by decide) (by decide) (by simpa [inside] using recipe)
  have proper : tree.Proper := .folder (by decide) (by simp) (by simpa using properInside)
  have filePath : f.url.filePath? = some (ofString "/w/") := by decide
  have leads : LeadsTo tree f [ofString "w"] inside := ⟨"/w/", filePath, by decide, rfl⟩
  have packages : packagesAt tree (ofString "/w/") =
      [⟨ofString "/w/." ++ ⟨[0xFF]⟩, ⟨[0x2E, 0xFF]⟩⟩, ⟨ofString "/w/a" ++ ⟨[0xFE]⟩, ⟨[0x61, 0xFE]⟩⟩,
        ⟨ofString "/w/a" ++ ⟨[0xFF]⟩, ⟨[0x61, 0xFF]⟩⟩] := by decide +kernel
  have all : tasks = (packagesAt tree (ofString "/w/")).flatMap (ofPackage "dub" f) := by
    simp only [tasks, discover, List.flatMap_singleton, ofFolder, filePath]
  have lost : ∀ p ∈ packagesAt tree (ofString "/w/"), (tree.at? p.path.display).isNone := by
    rw [packages]
    decide +kernel
  rw [packages] at all lost
  refine ⟨proper, leads, ?_, ?_, fun t member => ?_⟩
  · rw [all]
    decide +kernel
  · rw [all]
    decide +kernel
  · rw [all] at member
    obtain ⟨place, listed, member⟩ := List.mem_flatMap.1 member
    obtain ⟨⟨action, group, d⟩, variant, rfl⟩ := List.mem_map.1 member
    refine ⟨d, place.path.display, TaskDefinition.ofJson?_stored d, ?_, ?_⟩
    · simp only [variants, List.mem_cons, List.not_mem_nil, or_false, Prod.mk.injEq] at variant
      rcases variant with ⟨-, -, rfl⟩ | ⟨-, -, rfl⟩ | ⟨-, -, rfl⟩ | ⟨-, -, rfl⟩ <;> rfl
    · exact Option.isNone_iff_eq_none.1 (lost place listed)

end BuildTask

end PackageRecipe
