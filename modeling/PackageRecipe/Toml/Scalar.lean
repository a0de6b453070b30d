import PackageRecipe.Json
import PackageRecipe.Text.Pattern
import PackageRecipe.Text.Split

/-!
# Scalars in TOML

The written forms of truth values, numbers, dates and times as patterns, and the
values that they write. Dates and times are kept as texts.
-/

namespace PackageRecipe.Toml.Scalar

open PackageRecipe.Text PackageRecipe.Text.Pattern

/-! ## Forms -/

/-- A digit below a base. -/
def isDigitOf (base : Nat) (c : Char) : Bool :=
  let value :=
    if '0' ≤ c ∧ c ≤ '9' then c.toNat - '0'.toNat
    else if 'a' ≤ c ∧ c ≤ 'f' then c.toNat - 'a'.toNat + 10
    else if 'A' ≤ c ∧ c ≤ 'F' then c.toNat - 'A'.toNat + 10
    else base
  value < base

/-- Digits, between which single underscores may stand. -/
def digits (base : Nat) : Pattern :=
  .seq (.one (isDigitOf base)) (.many (.seq (char '_').opt (.one (isDigitOf base))))

/-- An optional sign. -/
def sign : Pattern := (Pattern.one ['+', '-'].contains).opt

/-- The given characters. -/
def word (s : String) : Pattern := .all (s.toList.map char)

/-- Decimal digits without a needless zero in front. -/
def whole : Pattern :=
  .alt (char '0')
    (.seq (.one fun c => '1' ≤ c ∧ c ≤ '9') (.many (.seq (char '_').opt (.one (isDigitOf 10)))))

/-- A decimal integer. -/
def decimal : Pattern := .seq sign whole

/-- The letters that announce another base than ten. -/
def bases : List (Char × Nat) := [('x', 16), ('o', 8), ('b', 2)]

/-- An integer of another base than ten. -/
def based : Pattern :=
  (bases.map fun (letter, base) => Pattern.all [char '0', char letter, digits base]).foldr .alt .never

/-- A fraction. -/
def fraction : Pattern := .seq (char '.') (digits 10)

/-- An exponent. -/
def exponent : Pattern := .all [.one ['e', 'E'].contains, sign, digits 10]

/-- A number with a fraction or an exponent. -/
def float : Pattern :=
  .all [sign, whole, .alt (.seq fraction exponent.opt) exponent]

/-- A number that is infinite or none at all. -/
def special : Pattern := .seq sign (.alt (word "inf") (word "nan"))

/-- A number of decimal digits. -/
def places (n : Nat) : Pattern := between (.one (isDigitOf 10)) n 0

/-- A date. -/
def date : Pattern := .all [places 4, char '-', places 2, char '-', places 2]

/-- A time of day. -/
def time : Pattern :=
  .all [places 2, char ':', places 2, char ':', places 2,
    (Pattern.seq (char '.') (.some (.one (isDigitOf 10)))).opt]

/-- How far a clock is from universal time. -/
def offset : Pattern :=
  .alt (.one ['Z', 'z'].contains)
    (.all [.one ['+', '-'].contains, places 2, char ':', places 2])

/-- A date with or without a time, or a time. -/
def moment : Pattern :=
  .alt (.seq date (Pattern.all [.one ['T', 't', ' '].contains, time, offset.opt]).opt) time

/-- A truth value. -/
def truth : Pattern := .alt (word "true") (word "false")

/-- Every scalar that is not a string. -/
def bare : Pattern :=
  [truth, decimal, based, float, special, moment].foldr .alt .never

/-! ## Values -/

/-- The number that digits write, between which underscores may stand. -/
def number (base : Nat) (cs : List Char) : Nat :=
  (cs.filter (· != '_')).foldl (fun n c =>
    n * base +
      if '0' ≤ c ∧ c ≤ '9' then c.toNat - '0'.toNat
      else if 'a' ≤ c then c.toNat - 'a'.toNat + 10
      else c.toNat - 'A'.toNat + 10) 0

/-- Whether a number is written with a minus sign, and what follows the sign. -/
def cutSign : List Char → Bool × List Char
  | '-' :: r => (true, r)
  | '+' :: r => (false, r)
  | r => (false, r)

/-- The number of integers of 64 bits that are negative. -/
def negatives : Nat := 0x8000000000000000

/-- An integer of 64 bits. -/
def integer? (negative : Bool) (n : Nat) : Option Json :=
  if negative then if n ≤ negatives then some (.int (-(n : Int))) else none
  else if n < negatives then some (.int n) else none

/-- The largest number of digits that an exponent may need. -/
def maxExponent : Nat := 9999

/-- A number with a fraction or an exponent, unless it is too large. -/
def float? (text : List Char) : Option Json :=
  let (negative, r) := cutSign (text.filter (· != '_'))
  let significand := r.takeWhile fun c => c != 'e' && c != 'E'
  let power := (r.dropWhile fun c => c != 'e' && c != 'E').drop 1
  let (below, power) := cutSign power
  let digits := significand.filter (· != '.')
  let after := (significand.dropWhile (· != '.')).length - 1
  let power := min (number 10 power) maxExponent
  let shift : Int := (if below then -(power : Int) else power) - after
  let x := Float.ofScientific (number 10 digits) (shift < 0) shift.natAbs
  if x.isInf then none else some (.number (.float (if negative then -x else x)))

/-- A number that is infinite or none at all. -/
def specialValue (text : List Char) : Json :=
  let (negative, r) := cutSign text
  let x : Float := if r == "inf".toList then 1.0 / 0.0 else 0.0 / 0.0
  .number (.float (if negative then -x else x))

/-- The number of days of a month. -/
def daysOf (year month : Nat) : Nat :=
  if month = 2 then
    if year % 4 = 0 ∧ (year % 100 ≠ 0 ∨ year % 400 = 0) then 29 else 28
  else if month = 4 ∨ month = 6 ∨ month = 9 ∨ month = 11 then 30 else 31

/-- Whether the parts of a date are in range. -/
def isDate (cs : List Char) : Bool :=
  let year := number 10 (cs.take 4)
  let month := number 10 ((cs.drop 5).take 2)
  let day := number 10 ((cs.drop 8).take 2)
  1 ≤ month && month ≤ 12 && 1 ≤ day && day ≤ daysOf year month

/-- Whether the parts of a time are in range. -/
def isTime (cs : List Char) : Bool :=
  number 10 (cs.take 2) ≤ 23 && number 10 ((cs.drop 3).take 2) ≤ 59 &&
    number 10 ((cs.drop 6).take 2) ≤ 60

/-- Whether the parts of an offset are in range. -/
def isOffset (cs : List Char) : Bool :=
  match cs.dropWhile fun c => c != '+' && c != '-' with
  | [] => true
  | _ :: r => number 10 (r.take 2) ≤ 23 && number 10 ((r.drop 3).take 2) ≤ 59

/-- A date or a time. Between a date and a time stands a `T`. -/
def moment? (text : List Char) : Option Json :=
  if time.accepts text then
    if isTime text then some (.string (String.ofList text)) else none
  else
    let day := text.take 10
    let rest := text.drop 11
    if isDate day && (rest.isEmpty || (isTime rest && isOffset rest)) then
      some (.string (String.ofList (day ++ (if rest.isEmpty then [] else 'T' :: rest))))
    else none

/-- The value of an integer of another base than ten. -/
def based? (text : List Char) : Option Json :=
  match text with
  | '0' :: letter :: digits =>
    (bases.lookup letter).bind fun base => integer? false (number base digits)
  | _ => none

/-- The value of a scalar that is not a string. -/
def value? (text : List Char) : Option Json :=
  if truth.accepts text then some (.bool (text == "true".toList))
  else if decimal.accepts text then
    let (negative, digits) := cutSign text
    integer? negative (number 10 digits)
  else if based.accepts text then based? text
  else if float.accepts text then float? text
  else if special.accepts text then some (specialValue text)
  else moment? text

end PackageRecipe.Toml.Scalar
