import PackageRecipe.Json
import PackageRecipe.Decimal.Shortest

/-!
# Writing JSON

`Json.compact` writes a value without blanks, `Json.pretty` with a line for each
item and member, indented by two blanks for each level.
-/

namespace PackageRecipe.Json

open PackageRecipe.Decimal

/-- The digits of a number below 16. -/
def hexChar (n : Nat) : Char :=
  if n < 10 then Char.ofNat ('0'.toNat + n) else Char.ofNat ('a'.toNat + (n - 10))

/-- How a character is written in a string. -/
def writeChar (c : Char) : List Char :=
  match c with
  | '"' => ['\\', '"']
  | '\\' => ['\\', '\\']
  | '\x08' => ['\\', 'b']
  | '\x0c' => ['\\', 'f']
  | '\n' => ['\\', 'n']
  | '\r' => ['\\', 'r']
  | '\t' => ['\\', 't']
  | c =>
    if c.toNat < 0x20 then ['\\', 'u', '0', '0', hexChar (c.toNat / 16), hexChar (c.toNat % 16)]
    else [c]

/-- A string in quotes. -/
def writeString (s : String) : String :=
  "\"" ++ String.ofList (s.toList.flatMap writeChar) ++ "\""

/-- Positional up to 16 places before the point and four zeros behind it. -/
def floatLayout : Layout := ⟨16, 4⟩

/-- A floating-point number, `null` if it is not finite. -/
def writeFloat (x : Float) : String :=
  if x.isNaN || x.isInf then "null"
  else
    let bits := x.toBits.toNat
    let sign := if bits / signBit = 1 then "-" else ""
    let bits := bits % signBit
    if bits = 0 then sign ++ "0.0"
    else
      let (n, e) := shortest bits
      sign ++ floatLayout.write n e

/-- A number. -/
def Number.write : Number → String
  | .integer n => toString n
  | .float x => writeFloat x

/-- Blanks for a level of indentation. -/
def indentation (level : Nat) : String :=
  String.ofList (List.replicate (2 * level) ' ')

/-- How the parts of arrays and objects are set apart. -/
inductive Style where
  | compact
  | pretty

/-- What stands before each part at a level. -/
def Style.lead (level : Nat) : Style → String
  | .compact => ""
  | .pretty => "\n" ++ indentation level

/-- What stands between a name and its value. -/
def Style.colon : Style → String
  | .compact => ":"
  | .pretty => ": "

mutual

/-- Writes a value whose parts stand at `level`. -/
def write (style : Style) (level : Nat) : Json → String
  | null => "null"
  | bool b => if b then "true" else "false"
  | number n => n.write
  | string s => writeString s
  | array [] => "[]"
  | array items =>
    "[" ++ ",".intercalate (writeItems style level items) ++ style.lead (level - 1) ++ "]"
  | object [] => "\x7b\x7d"
  | object members =>
    "\x7b" ++ ",".intercalate (writeMembers style level members) ++ style.lead (level - 1) ++
      "\x7d"

/-- Writes each item. -/
def writeItems (style : Style) (level : Nat) : List Json → List String
  | [] => []
  | j :: r => (style.lead level ++ write style (level + 1) j) :: writeItems style level r

/-- Writes each member. -/
def writeMembers (style : Style) (level : Nat) : List (String × Json) → List String
  | [] => []
  | (k, j) :: r =>
    (style.lead level ++ writeString k ++ style.colon ++ write style (level + 1) j) ::
      writeMembers style level r

end

/-- A value without blanks. -/
def compact (j : Json) : String := write .compact 1 j

/-- A value with a line for each of its parts. -/
def pretty (j : Json) : String := write .pretty 1 j

end PackageRecipe.Json
