import Mathlib
import PackageRecipe.Completion

/-!
# Describing items

An item that names a package is described on request, by what an index knows about the package.

## Main Definitions

* `Completion.Item.Names` — an item names a package to describe
* `Completion.Item.told` — an item after a look-up of its package

## Design Notes

An index may have a state, such as a list of packages that it keeps, and a look-up may change it.
To an item two states are the same if the index answers the same in both.  All that an item can
become is settled by one answer (`resolve_eq`), and neither the description nor the version of a
package is what an item is asked for (`names_told_iff`), so the second look-up is the first one.
-/

namespace PackageRecipe.Completion

variable {item : Item} {package : String}

/-- An item names a package: its data are an object with the name. -/
def Item.Names (item : Item) (package : String) : Prop :=
  ∃ members, item.data = some (.object members) ∧ members.lookup "package" = some (.string package)

/-- An item after a look-up of its package, which may have failed. -/
def Item.told (item : Item) (found : Option PackageSummary) : Item :=
  found.elim item item.describe

theorem packageOf?_eq_some_iff : packageOf? item = some package ↔ item.Names package := by
  have member {j : Json} : (∃ v, j.get? packageKey = some v ∧ v.string? = some package) ↔
      ∃ members, j = .object members ∧ members.lookup "package" = some (.string package) := by
    have text {v : Json} : v.string? = some package ↔ v = .string package := by
      cases v <;> simp [Json.string?]
    cases j <;> simp [Json.get?, packageKey, text]
  simp only [packageOf?, Option.bind_eq_bind, Option.bind_eq_some_iff, member, Item.Names]
  constructor
  · rintro ⟨_, data, members, rfl, found⟩
    exact ⟨members, data, found⟩
  · rintro ⟨members, data, found⟩
    exact ⟨_, data, members, rfl, found⟩

/-- What an item is told does not change which package it names. -/
theorem names_told_iff (found : Option PackageSummary) :
    (item.told found).Names package ↔ item.Names package := by
  cases found <;> rfl

/-- An item that is told the same again stays as it is. -/
theorem told_told (found : Option PackageSummary) :
    (item.told found).told found = item.told found := by
  obtain _ | ⟨version, description, -⟩ := found
  · rfl
  · cases version <;> cases description <;> rfl

/-- **An item is described by one look-up**, of the package that it names. -/
theorem resolve_eq {m : Type → Type} [Monad m] [LawfulMonad m] (index : PackageIndex m)
    (names : item.Names package) : resolve index item = item.told <$> index.latest package := by
  rw [resolve, packageOf?_eq_some_iff.2 names, map_eq_pure_bind]
  refine bind_congr fun found => ?_
  cases found <;> rfl

theorem resolve_of_nameless {m : Type → Type} [Monad m] (index : PackageIndex m)
    (nameless : ¬ ∃ package, item.Names package) : resolve index item = pure item := by
  have none : packageOf? item = none := by
    rw [Option.eq_none_iff_forall_ne_some]
    exact fun package found => nameless ⟨package, packageOf?_eq_some_iff.1 found⟩
  rw [resolve, none]

/-- Names of packages are offered for what is typed if no colon is. -/
theorem packageItems_eq {m : Type → Type} [Monad m] [LawfulMonad m] (index : PackageIndex m)
    (settings : Settings) {typed : String} (plain : ':' ∉ typed.toList) :
    packageItems index settings typed = (fun names => names.elim [] fun names =>
      (matchingNames queryScore settings.maxPackages typed names).map packageItem) <$>
        index.names := by
  have none : beforeColon? typed = none := if_neg (by simpa using plain)
  rw [packageItems, none, map_eq_pure_bind]
  refine bind_congr fun names => ?_
  cases names <;> rfl

theorem names_packageItem_iff {name : String} :
    (packageItem name).Names package ↔ package = name := by
  simp [Item.Names, packageItem, packageKey, eq_comm]

/-- The items that are offered for what is typed name the packages that they are labelled with. -/
theorem names_of_mem_packageItems {σ : Type} (index : PackageIndex (StateM σ))
    (settings : Settings) {typed : String} (plain : ':' ∉ typed.toList) (s : σ) {i : Item}
    (member : i ∈ (packageItems index settings typed s).1) (package : String) :
    i.Names package ↔ package = i.label := by
  rw [packageItems_eq index settings plain] at member
  replace member : i ∈ (index.names s).1.elim [] fun names =>
    (matchingNames queryScore settings.maxPackages typed names).map packageItem := member
  cases known : (index.names s).1 with
  | none => simp [known] at member
  | some names =>
      rw [known, Option.elim_some] at member
      obtain ⟨name, -, rfl⟩ := List.mem_map.1 member
      exact names_packageItem_iff

/-- What an item becomes is told by the answer alone. -/
theorem resolve_run {σ : Type} (index : PackageIndex (StateM σ)) (names : item.Names package)
    (s : σ) : (resolve index item s).1 = item.told (index.latest package s).1 := by
  rw [resolve_eq index names]
  rfl

/-- **Describing an item is a safe update.**  It changes nothing but the documentation and the
detail of the item, and neither of them if the item names no package or the look-up fails; what a
package lacks stays as it was.  As long as the index answers the same, the item stays as it is when
it is described again.  The items that are offered without a colon name the packages that they are
labelled with. -/
theorem resolve_described {σ : Type} (index : PackageIndex (StateM σ)) (item : Item) (s : σ) :
    let resolved := (resolve index item s).1
    resolved = { item with documentation := resolved.documentation, detail := resolved.detail } ∧
    ((¬ ∃ package, item.Names package) → resolve index item s = (item, s)) ∧
    (∀ package, item.Names package → (index.latest package s).1 = none → resolved = item) ∧
    (∀ package summary, item.Names package → (index.latest package s).1 = some summary →
      resolved.documentation = summary.description.elim item.documentation (some <| .plain ·) ∧
      resolved.detail = summary.version.elim item.detail some) ∧
    (∀ s', (∀ package, (index.latest package s').1 = (index.latest package s).1) →
      (resolve index resolved s').1 = resolved) ∧
    ∀ settings typed, ':' ∉ typed.toList → ∀ i ∈ (packageItems index settings typed s).1,
      ∀ package, i.Names package ↔ package = i.label := by
  intro resolved
  have offered (settings : Settings) (typed : String) (plain : ':' ∉ typed.toList) (i : Item)
      (member : i ∈ (packageItems index settings typed s).1) :=
    names_of_mem_packageItems index settings plain s member
  by_cases named : ∃ package, item.Names package
  · obtain ⟨package, names⟩ := named
    have told : resolved = item.told (index.latest package s).1 := resolve_run index names s
    have only {other : String} (names' : item.Names other) : other = package := by
      simpa using (packageOf?_eq_some_iff.2 names').symm.trans (packageOf?_eq_some_iff.2 names)
    refine ⟨?_, fun nameless => absurd ⟨package, names⟩ nameless, ?_, ?_, ?_, offered⟩
    · rw [told]
      cases (index.latest package s).1 <;> rfl
    · rintro other names' failed
      rw [told, ← only names', failed]
      rfl
    · rintro other ⟨version, description, subPackages⟩ names' answer
      rw [told, ← only names', answer]
      cases version <;> cases description <;> exact ⟨rfl, rfl⟩
    · intro s' same
      have names' : resolved.Names package := told ▸ (names_told_iff _).2 names
      rw [resolve_run index names', same, told, told_told]
  · have unchanged : resolve index item = pure item := resolve_of_nameless index named
    have still : resolved = item := congrArg (fun run => (run s).1) unchanged
    refine ⟨by rw [still], fun _ => congrFun unchanged s, fun package names => ?_,
      fun package summary names => ?_, fun s' _ => ?_, offered⟩
    · exact absurd ⟨package, names⟩ named
    · exact absurd ⟨package, names⟩ named
    · rw [still, unchanged]
      rfl

/-- An index that counts its look-ups describes a package without a description. -/
theorem resolve_described_counting :
    let latest (package : String) : StateM ℕ (Option PackageSummary) := do
      modify (· + 1)
      pure (if package = "vibe-core" then some ⟨some "2.8.0", none, []⟩ else none)
    let index : PackageIndex (StateM ℕ) :=
      ⟨pure (some ["dub", "vibe-core"]), fun _ => pure none, latest⟩
    let item : Item :=
      { packageItem "vibe-core" with documentation := some (.plain "cached"), detail := some "1.0" }
    let resolved := (resolve index item 4).1
    item.Names "vibe-core" ∧ (index.latest "vibe-core" 4).1 = some ⟨some "2.8.0", none, []⟩ ∧
      resolved.documentation = some (.plain "cached") ∧ resolved.detail = some "2.8.0" ∧
      (∀ package, (index.latest package 5).1 = (index.latest package 4).1) ∧
      (resolve index resolved 5).1 = resolved ∧
      ':' ∉ "vi".toList ∧ ∀ i ∈ (packageItems index {} "vi" 4).1, i.Names i.label := by
  intro latest index item resolved
  have names : item.Names "vibe-core" := ⟨_, rfl, rfl⟩
  have answer : (index.latest "vibe-core" 4).1 = some ⟨some "2.8.0", none, []⟩ := rfl
  have same (package : String) : (index.latest package 5).1 = (index.latest package 4).1 := rfl
  have plain : ':' ∉ "vi".toList := by decide
  obtain ⟨-, -, -, filled, again, offered⟩ := resolve_described index item 4
  obtain ⟨documentation, detail⟩ := filled "vibe-core" _ names answer
  exact ⟨names, answer, documentation, detail, same, again 5 same, plain,
    fun i member => (offered {} "vi" plain i member i.label).2 rfl⟩

end PackageRecipe.Completion
