import PackageRecipe.Json.Record
import PackageRecipe.Proofs.Keyed

/-!
# Records that are written and read

A record is written as an object and read from one.  This file shows what does not matter on
the way: the order of the members, and members that are no fields.

## Design Notes

A field is known to a reader by look-up alone.  `record?_of_perm` says what is found in an
object, and `Record.defaulted_bool` and its companions what each kind of field is read as.  `canonical_canonical` says that a value in canonical form stays as it is
when it is stored again.
-/

namespace PackageRecipe.Json

/-! ## Canonical form -/

theorem canonicalMembers_eq_map (members : List (String × Json)) :
    canonicalMembers members = members.map fun p => (p.1, p.2.canonical) := by
  induction members with
  | nil => rw [canonicalMembers, List.map_nil]
  | cons p members ih =>
      obtain ⟨name, j⟩ := p
      rw [canonicalMembers, ih, List.map_cons]

mutual

/-- **The canonical form of a value is its own canonical form.** -/
theorem canonical_canonical : ∀ j : Json, j.canonical.canonical = j.canonical
  | .null => by simp [canonical]
  | .bool b => by simp [canonical]
  | .number n => by simp [canonical]
  | .string s => by simp [canonical]
  | .array items => by rw [canonical, canonical, canonicalItems_canonicalItems items]
  | .object members => by
      rw [canonical, canonical]
      congr 1
      rw [canonicalMembers_eq_map (Keyed.ofList _), ← Keyed.ofList_map canonical,
        ← canonicalMembers_eq_map, canonicalMembers_canonicalMembers members]
      exact (Keyed.sorted_ofList _).ofList_eq

theorem canonicalItems_canonicalItems : ∀ items : List Json,
    canonicalItems (canonicalItems items) = canonicalItems items
  | [] => by simp [canonicalItems]
  | j :: items => by
      rw [canonicalItems, canonicalItems, canonical_canonical j,
        canonicalItems_canonicalItems items]

theorem canonicalMembers_canonicalMembers : ∀ members : List (String × Json),
    canonicalMembers (canonicalMembers members) = canonicalMembers members
  | [] => by simp [canonicalMembers]
  | (name, j) :: members => by
      rw [canonicalMembers, canonicalMembers, canonical_canonical j,
        canonicalMembers_canonicalMembers members]

end

theorem canonical_ofString? (o : Option String) : (ofString? o).canonical = ofString? o := by
  cases o <;> simp [ofString?, ofOption, canonical]

theorem canonical_ofStrings (ss : List String) : (ofStrings ss).canonical = ofStrings ss := by
  have items : canonicalItems (ss.map string) = ss.map string := by
    induction ss with
    | nil => simp [canonicalItems]
    | cons s ss ih => simp [canonicalItems, canonical, ih]
  rw [ofStrings, canonical, items]

/-! ## Fields in any order -/

/-- The members of an object are read as the fields of a record in whatever order they stand,
with members of other names between them. -/
theorem record?_of_perm {names : List String} {fields extra members : List (String × Json)}
    (known : ∀ p ∈ fields, p.1 ∈ names) (nodup : (fields.map Prod.fst).Nodup)
    (foreign : ∀ p ∈ extra, p.1 ∉ names) (perm : members.Perm (fields ++ extra)) :
    ∃ r, (object members).record? names = some r ∧
      ∀ name, r.lookup name = fields.lookup name := by
  have given : (members.filter fun p => names.contains p.1).Perm fields := by
    have kept : fields.filter (fun p => names.contains p.1) = fields :=
      List.filter_eq_self.2 fun p member => by simpa using known p member
    have dropped : extra.filter (fun p => names.contains p.1) = [] :=
      List.filter_eq_nil_iff.2 fun p member => by simpa using foreign p member
    have filtered := perm.filter fun p => names.contains p.1
    rwa [List.filter_append, kept, dropped, List.append_nil] at filtered
  have once := (given.map Prod.fst).nodup_iff.2 nodup
  exact ⟨_, if_pos once, Keyed.lookup_eq_of_perm given once⟩

/-! ## Fields of each kind -/

theorem strings?_ofStrings (ss : List String) : strings? (ofStrings ss) = some ss := by
  have items : (ss.map string).mapM string? = some ss := by
    induction ss with
    | nil => rfl
    | cons s ss ih => simp [string?, ih]
  exact items

namespace Record

variable {α : Type} {r : Record} {name : String} {j : Json}

theorem required_of_lookup {read : Json → Option α} (given : r.lookup name = some j) :
    r.required name read = read j := by
  rw [required, given, Option.bind_some]

theorem defaulted_of_lookup {read : Json → Option α} (given : r.lookup name = some j)
    (default : α) : r.defaulted name default read = read j := by
  rw [defaulted, given]

/-- An optional field is `null` if it is absent, and nothing else is written as `null`. -/
theorem nullable_of_lookup {read : Json → Option α} {write : α → Json}
    (inverse : ∀ a, read (write a) = some a) (noNull : ∀ a, write a ≠ .null) {o : Option α}
    (given : r.lookup name = some (ofOption write o)) : r.nullable name read = some o := by
  rw [nullable, given]
  cases o with
  | none => rfl
  | some a =>
      rw [ofOption]
      split
      · simp_all
      · rename_i null
        exact absurd (Option.some.inj null) (noNull a)
      · rename_i k _ same
        rw [← Option.some.inj same, inverse, Option.map_some]

theorem required_string {s : String} (given : r.lookup name = some (.string s)) :
    r.required name string? = some s :=
  required_of_lookup given

theorem defaulted_bool {b : Bool} (given : r.lookup name = some (.bool b)) :
    r.defaulted name false bool? = some b :=
  defaulted_of_lookup given false

theorem defaulted_strings {ss : List String} (given : r.lookup name = some (.ofStrings ss)) :
    r.defaulted name [] strings? = some ss :=
  (defaulted_of_lookup given []).trans (strings?_ofStrings ss)

theorem nullable_string {o : Option String} (given : r.lookup name = some (.ofString? o)) :
    r.nullable name string? = some o := by
  have inverse (s : String) : string? (.string s) = some s := rfl
  exact nullable_of_lookup inverse (by simp) given

end Record

end PackageRecipe.Json
