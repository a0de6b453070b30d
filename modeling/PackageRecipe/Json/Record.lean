import PackageRecipe.Json

/-!
# Records in JSON

A record has named fields. It is written as an object, whose other members do
not count, or as an array of its fields in order, of which fields may be missing
at the end. No field is given twice.
-/

namespace PackageRecipe.Json

/-- The fields that are given for a record. -/
abbrev Record := List (String × Json)

/-- The fields among the named ones that a value gives. -/
def record? (names : List String) : Json → Option Record
  | .object members =>
    let known := members.filter fun (name, _) => names.contains name
    if (known.map (·.1)).Nodup then some known else none
  | .array items => if items.length ≤ names.length then some (names.zip items) else none
  | _ => none

namespace Record

variable {α : Type}

/-- A field that must be given. -/
def required (r : Record) (name : String) (read : Json → Option α) : Option α :=
  (r.lookup name).bind read

/-- A field that has a default. -/
def defaulted (r : Record) (name : String) (default : α) (read : Json → Option α) : Option α :=
  match r.lookup name with
  | none => some default
  | some j => read j

/-- A field that may be missing or `null`. -/
def nullable (r : Record) (name : String) (read : Json → Option α) : Option (Option α) :=
  match r.lookup name with
  | none => some none
  | some .null => some none
  | some j => (read j).map some

end Record

/-- The items of an array that are all read alike. -/
def list? {α : Type} (read : Json → Option α) (j : Json) : Option (List α) :=
  j.array?.bind fun items => items.mapM read

/-- A list of strings. -/
def strings? : Json → Option (List String) :=
  list? string?

end PackageRecipe.Json
