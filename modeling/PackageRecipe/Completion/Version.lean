import PackageRecipe.Text.DecimalDigit

/-!
# Versions

The key under which an editor sorts versions, newest first.
-/

namespace PackageRecipe.Completion

open PackageRecipe.Text

/-- The digits at the head of a text, at least one, and what follows them. -/
def digitRun? (cs : List Char) : Option (List Char × List Char) :=
  match cs.span isDecimalDigit with
  | ([], _) => none
  | (ds, r) => some (ds, r)

/-- What follows a point at the head of a text. -/
def behindPoint? : List Char → Option (List Char)
  | '.' :: r => some r
  | _ => none

/-- The three runs of digits with points between at the head of a text. -/
def tripleAt? (cs : List Char) : Option (List Char × List Char × List Char) := do
  let (a, r) ← digitRun? cs
  let (b, r) ← digitRun? (← behindPoint? r)
  let (c, _) ← digitRun? (← behindPoint? r)
  some (a, b, c)

/-- The leftmost three runs of digits with points between. -/
def triple? : List Char → Option (List Char × List Char × List Char)
  | [] => none
  | c :: r => (tripleAt? (c :: r)).or (triple? r)

/-- The largest component that a key tells apart. -/
def maxComponent : Nat := 999

/-- The value of a component, at most `maxComponent`. Components that are too
long for 32 bits or not written in ASCII digits count as the largest. -/
def componentValue (ds : List Char) : Nat :=
  if ds.all Char.isDigit then
    min maxComponent (ds.foldl (fun n c => n * 10 + (c.toNat - '0'.toNat)) 0)
  else maxComponent

/-- A number below 1000 in three digits. -/
def threeDigits (n : Nat) : List Char :=
  [n / 100 % 10, n / 10 % 10, n % 10].map fun d => Char.ofNat ('0'.toNat + d)

/-- The part of a key for a component: the larger the component, the lower. -/
def componentKey (ds : List Char) : List Char :=
  threeDigits (maxComponent - componentValue ds)

/-- The sort key of a version: nine digits, the lower the newer. Texts without
three components come last. -/
def versionKey (version : String) : String :=
  match triple? version.toList with
  | none => "999999999"
  | some (a, b, c) => String.ofList (componentKey a ++ componentKey b ++ componentKey c)

end PackageRecipe.Completion
