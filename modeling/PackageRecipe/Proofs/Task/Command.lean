import Mathlib
import PackageRecipe.Task.Definition

/-!
# Command lines of tasks

A command line is one list of words in which nothing separates the parts of a definition, and
most of these parts are texts of a user.  This file shows that the parts are known from the
command line all the same.

## Main Definitions

* `TaskDefinition.Options` — options with their values, in order
* `TaskDefinition.options` — the options of a definition
* `TaskDefinition.Alike` — definitions that a command line cannot tell apart

## Design Notes

Every option is a row of words that begin with its mark, one for each value: `--force` has the
empty value, and an absent option has none.  No mark begins another one, so a word begins with
one mark at most, whatever the user wrote behind it (`Apart.not_both`).  The words of an option
end where the next word does not begin with its mark, and reading a command line is the
induction over the options (`Options.words_inj`).  What is appended at the end is free and may
look like an option, so its length must be known.
-/

namespace PackageRecipe

namespace TaskDefinition

/-! ## Marks -/

/-- Neither of two marks begins the other. -/
def Apart (m n : String) : Prop :=
  ¬ m.toList <+: n.toList ∧ ¬ n.toList <+: m.toList

instance (m n : String) : Decidable (Apart m n) :=
  inferInstanceAs (Decidable (_ ∧ _))

variable {m n word : String}

/-- No word begins with two marks that are apart. -/
theorem Apart.not_both (apart : Apart m n) (first : m.toList <+: word.toList) :
    ¬ n.toList <+: word.toList := by
  intro second
  rcases List.prefix_or_prefix_of_prefix first second with short | short
  · exact apart.1 short
  · exact apart.2 short

theorem mark_begins (m value : String) : m.toList <+: (m ++ value).toList :=
  ⟨value.toList, String.toList_append.symm⟩

/-- The words of one option end where words begin that do not have its mark. -/
theorem marked_append_inj {xs ys rest others : List String}
    (left : ∀ w ∈ rest, ¬ m.toList <+: w.toList) (right : ∀ w ∈ others, ¬ m.toList <+: w.toList)
    (same : xs.map (m ++ ·) ++ rest = ys.map (m ++ ·) ++ others) : xs = ys ∧ rest = others := by
  induction xs generalizing ys with
  | nil =>
      cases ys with
      | nil => exact ⟨rfl, same⟩
      | cons y ys => exact absurd (mark_begins m y) (left _ (by simp [show rest = _ from same]))
  | cons x xs ih =>
      cases ys with
      | nil => exact absurd (mark_begins m x) (right _ (by simp [← show _ = others from same]))
      | cons y ys =>
          rw [List.map_cons, List.map_cons, List.cons_append, List.cons_append,
            List.cons.injEq] at same
          obtain ⟨values, behind⟩ := ih same.2
          exact ⟨List.cons_eq_cons.2 ⟨(String.append_right_inj m).1 same.1, values⟩, behind⟩

/-! ## Options -/

/-- Marks of options, each with the values that it is given. -/
abbrev Options := List (String × List String)

/-- The words of options: one for each value, its mark in front of it. -/
def Options.words (os : Options) : List String :=
  os.flatMap fun o => o.2.map (o.1 ++ ·)

theorem Options.exists_mark_of_mem {os : Options} (member : word ∈ os.words) :
    ∃ o ∈ os, o.1.toList <+: word.toList := by
  obtain ⟨o, inside, made⟩ := List.mem_flatMap.1 member
  obtain ⟨value, -, rfl⟩ := List.mem_map.1 made
  exact ⟨o, inside, mark_begins o.1 value⟩

/-- **Options are known from their words**, if no mark begins another one. -/
theorem Options.words_inj {os ps : Options} (marks : os.map Prod.fst = ps.map Prod.fst)
    (apart : (os.map Prod.fst).Pairwise Apart) (same : os.words = ps.words) : os = ps := by
  induction os generalizing ps with
  | nil => exact (List.map_eq_nil_iff.1 marks.symm).symm
  | cons o os ih =>
      obtain _ | ⟨p, ps⟩ := ps
      · simp at marks
      obtain ⟨m, xs⟩ := o
      obtain ⟨n, ys⟩ := p
      obtain ⟨rfl, others⟩ : m = n ∧ os.map Prod.fst = ps.map Prod.fst := by simpa using marks
      obtain ⟨ahead, apart⟩ := List.pairwise_cons.1 apart
      have free (qs : Options) (known : qs.map Prod.fst = os.map Prod.fst) :
          ∀ w ∈ qs.words, ¬ m.toList <+: w.toList := by
        intro w member begun
        obtain ⟨q, inside, marked⟩ := exists_mark_of_mem member
        exact (ahead q.1 (known ▸ List.mem_map_of_mem inside)).not_both begun marked
      obtain ⟨values, behind⟩ :=
        marked_append_inj (free os rfl) (free ps others.symm) (by simpa [words] using same)
      rw [values, ih others apart behind]

variable {d e : TaskDefinition}

/-! ## The options of a definition -/

/-- A value that is given: an empty one counts as absent. -/
def given (value : Option String) : Option String :=
  value.filter (· ≠ "")

/-- The options of a definition with their values, in the order of the command line. -/
def options (d : TaskDefinition) : Options :=
  [("--root=", (given d.root).toList), ("--override-config=", d.overrides),
    ("--force", if d.force then [""] else []), ("--compiler=", (given d.compiler).toList),
    ("--arch=", (given d.arch).toList), ("--build=", (given d.build).toList),
    ("--config=", (given d.configuration).toList)]

theorem apart_options (d : TaskDefinition) : (d.options.map Prod.fst).Pairwise Apart := by
  change ["--root=", "--override-config=", "--force", "--compiler=", "--arch=", "--build=",
    "--config="].Pairwise Apart
  decide

theorem option_eq (name : String) (value : Option String) :
    option name value = (given value).toList.map (name ++ "=" ++ ·) := by
  cases value with
  | none => rfl
  | some text =>
      by_cases empty : text = ""
      · subst empty
        rfl
      · have kept : given (some text) = some text := by simp [given, empty]
        simp [option, kept]

/-- A command line is the program, what it is to do, the options, and what is appended. -/
theorem command_eq (d : TaskDefinition) (program : String) :
    d.command program = [program, d.action] ++ d.options.words ++ d.args := by
  have force : (if d.force then ["--force"] else []) =
      (if d.force then [""] else []).map ("--force" ++ ·) := by
    split <;> rfl
  simp [command, option_eq, force, options, Options.words]

/-- What a program is to do is to test, else to run, else to build. -/
theorem action_eq_iff : d.action = e.action ↔
    d.test = e.test ∧ (d.test = false → d.run = e.run) := by
  unfold action
  cases d.test <;> cases e.test <;> cases d.run <;> cases e.run <;> decide

/-! ## What a command line tells -/

/-- Definitions that agree on what a command line tells: whether the package is tested and, if
it is not, whether it is run; the overrides in their order; whether the build is forced; the
values of the options, where empty ones count as absent; and what is appended.  The folder that
the program is started in is no part of it. -/
structure Alike (d e : TaskDefinition) : Prop where
  test : d.test = e.test
  run : d.test = false → d.run = e.run
  root : given d.root = given e.root
  overrides : d.overrides = e.overrides
  force : d.force = e.force
  compiler : given d.compiler = given e.compiler
  arch : given d.arch = given e.arch
  build : given d.build = given e.build
  configuration : given d.configuration = given e.configuration
  args : d.args = e.args

/-- Definitions are alike if they do the same with the same options. -/
theorem alike_iff : Alike d e ↔
    d.action = e.action ∧ d.options = e.options ∧ d.args = e.args := by
  constructor
  · intro alike
    refine ⟨action_eq_iff.2 ⟨alike.test, alike.run⟩, ?_, alike.args⟩
    rw [options, options, alike.root, alike.overrides, alike.force, alike.compiler, alike.arch,
      alike.build, alike.configuration]
  · rintro ⟨action, same, args⟩
    obtain ⟨test, run⟩ := action_eq_iff.1 action
    have list {v w : Option String} (values : v.toList = w.toList) : v = w := by
      cases v <;> cases w <;> simp_all
    simp only [options, List.cons.injEq, Prod.mk.injEq, true_and, and_true] at same
    obtain ⟨root, overrides, force, compiler, arch, build, configuration⟩ := same
    refine ⟨test, run, list root, overrides, ?_, list compiler, list arch, list build,
      list configuration, args⟩
    revert force
    cases d.force <;> cases e.force <;> simp

/-- **The command line determines the task.**  If as much is appended to two definitions, they
have the same command line exactly if they are alike. -/
theorem command_eq_command_iff (program : String) (size : d.args.length = e.args.length) :
    d.command program = e.command program ↔ Alike d e := by
  rw [alike_iff, command_eq, command_eq]
  constructor
  · intro same
    obtain ⟨front, args⟩ := List.append_inj' same size
    obtain ⟨action, words⟩ : d.action = e.action ∧ d.options.words = e.options.words := by
      simpa using front
    exact ⟨action, Options.words_inj rfl d.apart_options words, args⟩
  · rintro ⟨action, same, args⟩
    rw [action, same, args]

/-- Overrides and what is appended may look like an option.  Neither an empty folder, nor a run
that gives way to a test, nor the folder to start in is seen. -/
theorem command_eq_command_iff_disguised :
    let d : TaskDefinition :=
      { run := true, test := true, root := some "", overrides := ["--force", ""], args := ["--force"] }
    let e : TaskDefinition :=
      { test := true, cwd := some "/w", overrides := ["--force", ""], args := ["--force"] }
    d.args.length = e.args.length ∧ d.command "dub" = e.command "dub" ∧ Alike d e := by
  intro d e
  have same : d.command "dub" = e.command "dub" := by decide
  exact ⟨rfl, same, (command_eq_command_iff (d := d) (e := e) "dub" rfl).1 same⟩

/-- What is appended may look like an option. -/
example : ({ args := ["--force"] } : TaskDefinition).command "dub" =
    ({ force := true } : TaskDefinition).command "dub" := by
  decide

end TaskDefinition

end PackageRecipe
