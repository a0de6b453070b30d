import PackageRecipe.Proofs.Json.Record
import PackageRecipe.Proofs.Task.Binding

/-!
# Tasks that are stored

An editor stores the definition of a task and asks for its command again later.  This file
shows that nothing is lost on the way, so that the task runs as it was discovered.

## Design Notes

Definitions and tasks are written as records, and what is read from a record depends on the
look-ups of its fields alone (`Json.record?_of_perm`).  The members that an editor adds are no
fields, and neither the order of the members nor these members are seen by the reader.
-/

namespace PackageRecipe

open Json

namespace TaskDefinition

variable {d : TaskDefinition} {extra ms : List (String × Json)}

/-- The members of a definition are its fields, in order. -/
theorem map_fst_members (d : TaskDefinition) : d.members.map Prod.fst = fieldNames := rfl

/-- **A definition is read from its members**, in whatever order, with others between them. -/
theorem ofJson?_of_perm (foreign : ∀ m ∈ extra, m.1 ∉ fieldNames)
    (perm : ms.Perm (d.members ++ extra)) : ofJson? (.object ms) = some d := by
  have known : ∀ p ∈ d.members, p.1 ∈ fieldNames := fun p member =>
    d.map_fst_members ▸ List.mem_map_of_mem member
  have nodup : (d.members.map Prod.fst).Nodup := by
    rw [map_fst_members]
    decide
  obtain ⟨r, found, same⟩ := record?_of_perm known nodup foreign perm
  rw [ofJson?, found, Option.bind_eq_bind, Option.bind_some,
    Record.defaulted_bool (same "run"), Record.defaulted_bool (same "test"),
    Record.nullable_string (same "root"), Record.nullable_string (same "cwd"),
    Record.defaulted_strings (same "overrides"), Record.defaulted_bool (same "force"),
    Record.nullable_string (same "compiler"), Record.nullable_string (same "archType"),
    Record.nullable_string (same "buildType"), Record.nullable_string (same "configuration"),
    Record.defaulted_strings (same "args")]
  rfl

/-- What an editor stores of a definition is read as the definition. -/
theorem ofJson?_stored (d : TaskDefinition) : ofJson? (BuildTask.stored d) = some d := by
  have atoms : canonicalMembers (d.members ++ [("type", .string BuildTask.sourceName)]) =
      d.members ++ [("type", .string BuildTask.sourceName)] := by
    simp [members, canonicalMembers, canonical, canonical_ofString?, canonical_ofStrings]
  have nodup : ((d.members ++ [("type", Json.string BuildTask.sourceName)]).map Prod.fst).Nodup := by
    rw [List.map_append, map_fst_members]
    decide
  rw [BuildTask.stored, canonical, atoms]
  exact ofJson?_of_perm (by simp [fieldNames]) (Keyed.ofList_perm nodup)

/-- A command line is made of a program and its arguments. -/
theorem process_cons_args (d : TaskDefinition) (program : String) :
    (d.execution program).process :: (d.execution program).args = d.command program := by
  simp [execution, command]

/-- The command line of a definition without a folder is all that there is to start. -/
theorem executionOf_command (here : d.cwd = none) (program : String) :
    BuildTask.executionOf (d.command program) = d.execution program := by
  rw [BuildTask.executionOf, execution, here, Option.filter_none]

end TaskDefinition

theorem TaskGroup.ofJson?_name (g : TaskGroup) : ofJson? (.string g.name) = some g := by
  cases g <;> decide

namespace BuildTask

variable {t : BuildTask} {b : BoundTask} {root : FileTree} {folders : List Folder}
  {program : String}

/-- The fields of a task as members of an object. -/
def members (t : BuildTask) : List (String × Json) :=
  [("definition", t.definition), ("scope", .string t.scope), ("exec", .ofStrings t.exec),
    ("name", .string t.name), ("isBackground", .bool t.isBackground),
    ("source", .string t.source), ("group", .ofString? (t.group.map TaskGroup.name)),
    ("problemMatchers", .ofStrings t.problemMatchers)]

theorem toJson_eq (t : BuildTask) : t.toJson = .object t.members := rfl

/-- **A task is read as it was written**, with its definition in canonical form. -/
theorem ofJson?_toJson (t : BuildTask) :
    ofJson? t.toJson = some { t with definition := t.definition.canonical } := by
  have names : t.members.map Prod.fst = fieldNames := rfl
  have known : ∀ p ∈ t.members, p.1 ∈ fieldNames := fun p member =>
    names ▸ List.mem_map_of_mem member
  have nodup : (t.members.map Prod.fst).Nodup := by
    rw [names]
    decide
  have perm : t.members.Perm (t.members ++ []) := by
    rw [List.append_nil]
  obtain ⟨r, found, same⟩ := record?_of_perm known nodup (by simp) perm
  have definition : r.required "definition" (some ·.canonical) = some t.definition.canonical :=
    Record.required_of_lookup (same "definition")
  have group : r.nullable "group" TaskGroup.ofJson? = some t.group := by
    refine Record.nullable_of_lookup TaskGroup.ofJson?_name (by simp) ((same "group").trans ?_)
    cases written : t.group <;> simp [members, List.lookup, written, ofString?, ofOption]
  rw [toJson_eq, ofJson?, found, Option.bind_eq_bind, Option.bind_some, definition,
    Record.required_string (same "scope"), Record.defaulted_strings (same "exec"),
    Record.required_string (same "name"), Record.defaulted_bool (same "isBackground"),
    Record.required_string (same "source"), group,
    Record.defaulted_strings (same "problemMatchers")]
  rfl

/-- What is stored with a discovered task is the definition of its command. -/
theorem exists_definition (member : t ∈ discover root folders program) :
    ∃ d : TaskDefinition, t.definition = stored d ∧ t.exec = d.command program ∧ d.cwd = none := by
  obtain ⟨f, -, made⟩ := List.mem_flatMap.1 member
  unfold ofFolder at made
  split at made
  · simp at made
  · obtain ⟨place, -, made⟩ := List.mem_flatMap.1 made
    obtain ⟨⟨action, group, d⟩, variant, rfl⟩ := List.mem_map.1 made
    refine ⟨d, rfl, rfl, ?_⟩
    simp only [variants, List.mem_cons, List.not_mem_nil, or_false, Prod.mk.injEq] at variant
    rcases variant with ⟨-, -, rfl⟩ | ⟨-, -, rfl⟩ | ⟨-, -, rfl⟩ | ⟨-, -, rfl⟩ <;> rfl

/-- The stored definition of a task has the command of the task, and so has the bound task. -/
def KeepsCommand (program : String) (t : BuildTask) (b : BoundTask) : Prop :=
  ∃ d, TaskDefinition.ofJson? t.definition = some d ∧
    (d.execution program).process :: (d.execution program).args = t.exec ∧
    b.execution = d.execution program

theorem keepsCommand_of_mem (member : t ∈ discover root folders program)
    (near : BoundNear root folders program t b) : KeepsCommand program t b := by
  obtain ⟨d, written, exec, here⟩ := exists_definition member
  obtain ⟨-, -, -, g, -, -, rfl⟩ := near
  refine ⟨d, ?_, ?_, ?_⟩
  · rw [written, TaskDefinition.ofJson?_stored]
  · rw [exec, TaskDefinition.process_cons_args]
  · rw [bound, exec, TaskDefinition.executionOf_command here]

/-- **A task and what is stored of it run the same command.**  A definition that is written is
read again, also with other members added and in another order, and so is a task whose
definition is in canonical form.  Each discovered task has a definition that is read, and its
command is the one that the task carries and that the bound task starts. -/
theorem command_of_stored :
    (∀ (d : TaskDefinition) (fields extra ms : List (String × Json)), d.toJson = .object fields →
      (∀ m ∈ extra, m.1 ∉ TaskDefinition.fieldNames) → ms.Perm (fields ++ extra) →
        TaskDefinition.ofJson? (.object ms) = some d) ∧
    (∀ (t : BuildTask) (j : Json), t.definition = j.canonical → ofJson? t.toJson = some t) ∧
    ∀ (root : FileTree) (folders : List Folder) (program : String),
      List.Forall₂ (KeepsCommand program) (discover root folders program)
        (bindAll folders (discover root folders program)) := by
  refine ⟨fun d fields extra ms written foreign perm => ?_, fun t j kept => ?_,
    fun root folders program => ?_⟩
  · obtain rfl := Json.object.inj written
    exact TaskDefinition.ofJson?_of_perm foreign perm
  · rw [ofJson?_toJson, kept, canonical_canonical, ← kept]
  · refine forall₂_filterMap fun t member => ?_
    obtain ⟨b, taken, near⟩ := exists_bind member
    exact ⟨b, taken, keepsCommand_of_mem member near⟩

/-- A definition whose members come in reverse, behind the type of the task, and a task that
it is stored with. -/
theorem command_of_stored_reversed :
    let d : TaskDefinition := { root := some "/w/app", force := true }
    let extra : List (String × Json) := [("type", .string sourceName)]
    let t : BuildTask :=
      { definition := stored d, scope := "file:///w", exec := d.command "dub",
        name := "rebuild (app)", source := sourceName, group := some .rebuild }
    d.toJson = .object d.members ∧ (∀ m ∈ extra, m.1 ∉ TaskDefinition.fieldNames) ∧
      (d.members ++ extra).reverse.Perm (d.members ++ extra) ∧
      TaskDefinition.ofJson? (.object (d.members ++ extra).reverse) = some d ∧
      t.definition = (Json.object (d.members ++ extra)).canonical ∧
      ofJson? t.toJson = some t := by
  intro d extra t
  have foreign : ∀ m ∈ extra, m.1 ∉ TaskDefinition.fieldNames := by decide
  have perm : (d.members ++ extra).reverse.Perm (d.members ++ extra) := List.reverse_perm _
  exact ⟨rfl, foreign, perm, command_of_stored.1 d d.members extra _ rfl foreign perm, rfl,
    command_of_stored.2.1 t _ rfl⟩

end BuildTask

end PackageRecipe
