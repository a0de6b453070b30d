import PackageRecipe.Json

/-!
# Tables in TOML

What the lines of a document have defined so far. A table may be defined by a
header, by the dotted names of values in it, or on the way to another table; each
name is given a value once.
-/

namespace PackageRecipe.Toml

/-- How a table came about. -/
inductive Origin where
  /-- It has a header. -/
  | header
  /-- It stands in the dotted name of a value. -/
  | dotted
  /-- It stands in the header of another table. -/
  | passed
deriving DecidableEq, Repr

/-- What a name stands for. -/
inductive Item where
  | value (j : Json)
  | table (origin : Origin) (entries : List (String × Item))
  /-- Tables with one header, the last first. -/
  | tables (all : List (List (String × Item)))

/-- The names of a table with what they stand for. -/
abbrev Table := List (String × Item)

namespace Table

/-- A table with a name set. -/
def set (name : String) (item : Item) : Table → Table
  | [] => [(name, item)]
  | (key, old) :: rest => if key = name then (key, item) :: rest else (key, old) :: set name item rest

/-- Changes the table that a path of names leads to. Tables on the way are made. A
dotted name does not lead into tables that have a header, and no name leads into a
value. -/
def descend? (dotted : Bool) (change : Table → Option Table) : List String → Table → Option Table
  | [], t => change t
  | name :: path, t =>
    match t.lookup name with
    | none =>
      (descend? dotted change path []).map fun new =>
        t.set name (.table (if dotted then .dotted else .passed) new)
    | some (.value _) => none
    | some (.table origin old) =>
      if dotted && (origin == .header || (path.isEmpty && origin == .passed)) then none
      else (descend? dotted change path old).map fun new => t.set name (.table origin new)
    | some (.tables []) => none
    | some (.tables (old :: others)) =>
      if dotted && path.isEmpty then none
      else (descend? dotted change path old).map fun new => t.set name (.tables (new :: others))

/-- Gives a value to a name that has none yet. -/
def define? (name : String) (item : Item) (t : Table) : Option Table :=
  if (t.lookup name).isSome then none else some (t.set name item)

/-- Gives a value to a dotted name. -/
def put? (names : List String) (j : Json) (t : Table) : Option Table := do
  let name ← names.getLast?
  descend? true (define? name (.value j)) names.dropLast t

/-- Defines the table of a header. One that was only passed keeps its entries. -/
def addHeader? (names : List String) (t : Table) : Option Table := do
  let name ← names.getLast?
  descend? false (fun table =>
    match table.lookup name with
    | none => some (table.set name (.table .header []))
    | some (.table .passed entries) => some (table.set name (.table .header entries))
    | some _ => none) names.dropLast t

/-- Adds a table to those of a header. -/
def addElement? (names : List String) (t : Table) : Option Table := do
  let name ← names.getLast?
  descend? false (fun table =>
    match table.lookup name with
    | none => some (table.set name (.tables [[]]))
    | some (.tables all) => some (table.set name (.tables ([] :: all)))
    | some _ => none) names.dropLast t

end Table

mutual

/-- The value of an item. -/
def Item.toJson : Item → Json
  | .value j => j
  | .table _ entries => .object (tableMembers entries)
  | .tables all => .array (tablesItems all).reverse

/-- The values of the names of a table. -/
def tableMembers : List (String × Item) → List (String × Json)
  | [] => []
  | (name, item) :: rest => (name, item.toJson) :: tableMembers rest

/-- The values of tables. -/
def tablesItems : List (List (String × Item)) → List Json
  | [] => []
  | entries :: rest => .object (tableMembers entries) :: tablesItems rest

end

end PackageRecipe.Toml
