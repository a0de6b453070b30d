import PackageRecipe.Text.Pattern
import PackageRecipe.Text.DecimalDigit

/-!
# Numerals

The written forms of numbers, dates, times and durations as patterns.
-/

namespace PackageRecipe.Sdl.Numeral

open PackageRecipe.Text PackageRecipe.Text.Pattern

/-- A character that continues a numeral. -/
def isNumeralChar (c : Char) : Bool :=
  c.isAlphanum || c == '.' || c == ':' || c == '/' || c == '_'

/-- One decimal digit of any script. -/
def digit : Pattern := .one isDecimalDigit

/-- One or more digits. -/
def digits : Pattern := digit.some

/-- An optional minus sign. -/
def sign : Pattern := (char '-').opt

/-- One of the given characters. -/
def oneOf (cs : List Char) : Pattern := .one cs.contains

/-- Digits with an optional sign and the optional suffix `L`. -/
def integer : Pattern :=
  .all [sign, digits, (oneOf ['l', 'L']).opt]

/-- Digits with an optional fraction, where one side of the point may be empty,
and an optional suffix `F`, `D` or `BD`. -/
def float : Pattern :=
  .all [sign,
    .alt (.all [digits, char '.', .many digit]) (.alt (.all [char '.', digits]) digits),
    (Pattern.alt (oneOf ['f', 'F', 'd', 'D'])
      (.all [oneOf ['b', 'B'], oneOf ['d', 'D']])).opt]

/-- Year, month and day with slashes between. -/
def date : Pattern :=
  .all [digit.between 4 0, char '/', digit.between 1 1, char '/', digit.between 1 1]

/-- Seconds with an optional fraction, after a colon. -/
def seconds : Pattern :=
  .all [char ':', digit.between 2 0, (Pattern.all [char '.', digit.between 1 2]).opt]

/-- Hours and minutes, with days in front and seconds behind if present. -/
def duration : Pattern :=
  .all [sign, (Pattern.all [digits, char 'd', char ':']).opt, digits, char ':',
    digit.between 2 0, seconds.opt]

/-- A character of a time zone. -/
def isZoneChar (c : Char) : Bool :=
  c.isAlphanum || c == ':' || c == '+' || c == '/'

/-- The time of day that may follow a date: blanks or tabs, hours, minutes,
optional seconds and an optional time zone. -/
def timeOfDay : Pattern :=
  .all [(oneOf [' ', '\t']).some, digit.between 1 1, char ':', digit.between 2 0, seconds.opt,
    (Pattern.all [char '-', (Pattern.one isZoneChar).some]).opt]

/-- Whether a numeral is a well-formed number. -/
def isNumber (text : List Char) : Bool :=
  integer.accepts text || float.accepts text

end PackageRecipe.Sdl.Numeral
