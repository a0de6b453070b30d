/-!
# Lists with string keys

A list of pairs, ordered by key and with no key twice. Keys are ordered
character by character, which is also the order of their bytes in UTF-8.
-/

namespace PackageRecipe

/-- Pairs of a key and what belongs to it. -/
abbrev Keyed (α : Type) := List (String × α)

namespace Keyed

variable {α : Type}

/-- What belongs to a key. -/
def get? (key : String) (m : Keyed α) : Option α :=
  m.lookup key

/-- Whether a key is present. -/
def has (key : String) (m : Keyed α) : Bool :=
  (m.get? key).isSome

/-- The list with the entry of `key` changed by `f`, which is given the entry so
far; a new key is put at its place. -/
def alter (key : String) (f : Option α → α) : Keyed α → Keyed α
  | [] => [(key, f none)]
  | (k, a) :: m =>
    if key = k then (k, f (some a)) :: m
    else if key < k then (key, f none) :: (k, a) :: m
    else (k, a) :: alter key f m

/-- The list with a key set to a value. -/
def insert (key : String) (a : α) (m : Keyed α) : Keyed α :=
  m.alter key fun _ => a

/-- Orders pairs by key; of several with one key the last counts. -/
def ofList (pairs : List (String × α)) : Keyed α :=
  pairs.foldl (fun m (k, a) => m.insert k a) []

/-- Collects what belongs to each key, in the order of the pairs. -/
def group (pairs : List (String × α)) : Keyed (List α) :=
  pairs.foldr (fun (k, a) m => m.alter k fun as => a :: as.getD []) []

end Keyed

end PackageRecipe
