import PackageRecipe.Completion.Query

/-!
# Ranking

The names that match a query, best first.
-/

namespace PackageRecipe.Completion

/-- The names with a positive score from the highest on, at most `limit`. Names
with equal scores keep their order. -/
def rank (score : String → Nat) (limit : Nat) (names : List String) : List String :=
  let scored := (names.map fun name => (score name, name)).filter (0 < ·.1)
  ((scored.mergeSort fun a b => b.1 ≤ a.1).map (·.2)).take limit

/-- The names that match what is typed, at most `limit`. Without a query these
are the first names. -/
def matchingNames (score : String → String → Nat) (limit : Nat) (typed : String)
    (names : List String) : List String :=
  if typed.isEmpty then names.take limit else rank (score typed) limit names

/-- The score of a name for a typed query. -/
def queryScore (typed : String) : String → Nat :=
  let query := Query.ofText typed.toList
  fun name => Query.score query name

end PackageRecipe.Completion
