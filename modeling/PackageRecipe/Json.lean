import PackageRecipe.Keyed

/-!
# JSON values

Values of JSON as they are written: an object is a list of its members in the
order of the text, where a name may occur more than once. `Json.canonical` orders
the members of all objects by name and lets the last of several count.
-/

namespace PackageRecipe

/-- A number: an integer, or a floating-point number where the text has a
fraction or an exponent or leaves the range of 64-bit integers. -/
inductive Json.Number where
  | integer (n : Int)
  | float (x : Float)

/-- A JSON value. -/
inductive Json where
  | null
  | bool (b : Bool)
  | number (n : Json.Number)
  | string (s : String)
  | array (items : List Json)
  | object (members : List (String × Json))

instance : Inhabited Json := ⟨.null⟩

namespace Json

/-- An integer as a value. -/
def int (n : Int) : Json := .number (.integer n)

/-- A natural number as a value. -/
def nat (n : Nat) : Json := .int n

/-- An optional value, `null` if absent. -/
def ofOption {α : Type} (f : α → Json) : Option α → Json
  | none => .null
  | some a => f a

/-- An optional string, `null` if absent. -/
def ofString? : Option String → Json := ofOption .string

/-- A list of strings. -/
def ofStrings (ss : List String) : Json := .array (ss.map .string)

/-- The first member of an object with the given name. -/
def get? (name : String) : Json → Option Json
  | object members => members.lookup name
  | _ => none

/-- The text of a string. -/
def string? : Json → Option String
  | string s => some s
  | _ => none

/-- The items of an array. -/
def array? : Json → Option (List Json)
  | array items => some items
  | _ => none

/-- The members of an object. -/
def object? : Json → Option (List (String × Json))
  | object members => some members
  | _ => none

/-- The value of an integer. -/
def int? : Json → Option Int
  | number (.integer n) => some n
  | _ => none

/-- A truth value. -/
def bool? : Json → Option Bool
  | bool b => some b
  | _ => none

mutual

/-- The value with the members of each object ordered by name, where the last of
several members with one name counts. -/
def canonical : Json → Json
  | null => null
  | bool b => bool b
  | number n => number n
  | string s => string s
  | array items => array (canonicalItems items)
  | object members => object (Keyed.ofList (canonicalMembers members))

/-- `canonical` on each item. -/
def canonicalItems : List Json → List Json
  | [] => []
  | j :: r => canonical j :: canonicalItems r

/-- `canonical` on the value of each member. -/
def canonicalMembers : List (String × Json) → List (String × Json)
  | [] => []
  | (k, j) :: r => (k, canonical j) :: canonicalMembers r

end

end Json

end PackageRecipe
