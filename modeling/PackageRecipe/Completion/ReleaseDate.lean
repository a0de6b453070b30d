/-!
# Release dates

The day of a point in time that is written as in `2023-01-15T08:30:00Z`: the
date is taken as it stands, in the offset of the text.
-/

namespace PackageRecipe.Completion

namespace ReleaseDate

/-- The number that exactly `n` ASCII digits write, and what follows. -/
def number? (n : Nat) (s : List Char) : Option (Nat × List Char) :=
  let digits := s.take n
  if digits.length = n ∧ digits.all Char.isDigit then
    some (digits.foldl (fun v c => 10 * v + (c.toNat - '0'.toNat)) 0, s.drop n)
  else none

/-- What follows one of the given characters. -/
def behind? (cs : List Char) : List Char → Option (List Char)
  | c :: r => if cs.contains c then some r else none
  | [] => none

/-- Whether a year has a 29th of February. -/
def isLeap (year : Nat) : Bool :=
  year % 4 == 0 && (year % 100 != 0 || year % 400 == 0)

/-- The number of days of a month. -/
def daysIn (year month : Nat) : Nat :=
  match month with
  | 2 => if isLeap year then 29 else 28
  | 4 | 6 | 9 | 11 => 30
  | _ => 31

/-- Reads a date that is on the calendar. -/
def date? (s : List Char) : Option (List Char) := do
  let (year, s) ← number? 4 s
  let (month, s) ← number? 2 (← behind? ['-'] s)
  let (day, s) ← number? 2 (← behind? ['-'] s)
  if 1 ≤ month ∧ month ≤ 12 ∧ 1 ≤ day ∧ day ≤ daysIn year month then some s else none

/-- Reads a time of day, where a minute may have a leap second, with an optional
fraction of a second. -/
def time? (s : List Char) : Option (List Char) := do
  let (hour, s) ← number? 2 s
  let (minute, s) ← number? 2 (← behind? [':'] s)
  let (second, s) ← number? 2 (← behind? [':'] s)
  if hour < 24 ∧ minute < 60 ∧ second ≤ 60 then
    match s with
    | '.' :: r =>
      match r.span Char.isDigit with
      | ([], _) => none
      | (_, r) => some r
    | s => some s
  else none

/-- Reads the offset from universal time: `Z`, or a sign and less than a day. -/
def offset? (s : List Char) : Option (List Char) :=
  match behind? ['Z', 'z'] s with
  | some r => some r
  | none => do
    let (hours, s) ← number? 2 (← behind? ['+', '-', '\u2212'] s)
    let (minutes, s) ← number? 2 (← behind? [':'] s)
    if hours < 24 ∧ minutes < 60 then some s else none

/-- Whether a text is a point in time. -/
def isTime (s : List Char) : Bool :=
  (do offset? (← time? (← behind? ['T', 't', ' '] (← date? s)))) == some []

end ReleaseDate

/-- The day of a release. A text that is no point in time stands for itself. -/
def releaseDay (date : String) : String :=
  if ReleaseDate.isTime date.toList then String.ofList (date.toList.take 10) else date

end PackageRecipe.Completion
