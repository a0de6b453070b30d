import PackageRecipe.Text.Blank
import PackageRecipe.Text.Case
import PackageRecipe.Text.Split
import PackageRecipe.Url.Percent
import PackageRecipe.Url.Punycode

/-!
# Hosts

The host part of a URL in its normal form. Web addresses name a domain or an
address of the network; in URLs of other schemes the host is any text without
separators.
-/

namespace PackageRecipe.Url.Host

open PackageRecipe.Text

/-- The characters that no host contains. -/
def isForbidden (c : Char) : Bool :=
  ['\x00', '\t', '\n', '\r', ' ', '#', '/', ':', '<', '>', '?', '@', '[', '\\', ']', '^',
    '|'].contains c

/-- The characters that no domain contains. -/
def isForbiddenInDomain (c : Char) : Bool :=
  isForbidden c || c < ' ' || c == '%' || c == '\x7f'

/-! ## Addresses of four bytes -/

/-- The number that digits below a base write. -/
def number? (base : Nat) (digits : List Char) : Option Nat :=
  digits.foldlM (fun n c => do
    let d ← Percent.hexValue? c
    if d < base then some (base * n + d) else none) 0

/-- A part of an address: hexadecimal after `0x`, octal after `0`, else decimal. -/
def addressPart? : List Char → Option Nat
  | [] => none
  | '0' :: 'x' :: r => number? 16 r
  | '0' :: 'X' :: r => number? 16 r
  | ['0'] => some 0
  | '0' :: r => number? 8 r
  | digits => number? 10 digits

/-- The parts of a domain, where a dot at the end does not count. -/
def labels (domain : List Char) : List (List Char) :=
  let parts := splitOn '.' domain
  if 1 < parts.length ∧ parts.getLast? = some [] then parts.dropLast else parts

/-- Whether a domain is to be read as an address. -/
def endsInNumber (domain : List Char) : Bool :=
  match (labels domain).getLast? with
  | none => false
  | some [] => false
  | some last => last.all (fun c => '0' ≤ c ∧ c ≤ '9') || (addressPart? last).isSome

/-- The value of an address of one to four parts, whose last part takes all the
bytes that the others leave. -/
def addressValue? (parts : List (List Char)) : Option Nat := do
  let numbers ← parts.mapM addressPart?
  let last ← numbers.getLast?
  let first := numbers.dropLast
  if 4 < numbers.length ∨ first.any (255 < ·) ∨ Nat.pow 256 (5 - numbers.length) ≤ last then none
  else some (first.zipIdx.foldl (fun value (n, i) => value + n * Nat.pow 256 (3 - i)) last)

/-- An address of four bytes as four decimal numbers. -/
def renderAddress (value : Nat) : String :=
  ".".intercalate ([3, 2, 1, 0].map fun i => toString (value / Nat.pow 256 i % 256))

/-! ## Addresses of eight words -/

/-- The words that a group of an address writes: one, or two for the four decimal
numbers that may stand at the end. -/
def words? (isLast : Bool) (group : List Char) : Option (List Nat) :=
  if group.contains '.' then
    let parts := splitOn '.' group
    let plain := parts.all fun p => p.all (fun c => '0' ≤ c ∧ c ≤ '9') && (p.head? != some '0' || p.length == 1)
    if isLast ∧ parts.length = 4 ∧ plain then
      (addressValue? parts).map fun v => [v / 65536, v % 65536]
    else none
  else if 1 ≤ group.length ∧ group.length ≤ 4 then (number? 16 group).map ([·])
  else none

/-- The words of groups that are separated by colons. -/
def groups? (closing : Bool) : List (List Char) → Option (List Nat)
  | [] => some []
  | [group] => words? closing group
  | group :: r => do
    let first ← words? false group
    let others ← groups? closing r
    pure (first ++ others)

/-- The groups of a text, of which an empty text has none. -/
def groupsOf (text : List Char) : List (List Char) :=
  if text.isEmpty then [] else splitOn ':' text

/-- What stands before and after the first double colon. -/
def cutDoubleColon : List Char → Option (List Char × List Char)
  | ':' :: ':' :: r => some ([], r)
  | c :: r => (cutDoubleColon r).map fun (a, b) => (c :: a, b)
  | [] => none

/-- The eight words of an address, of which a double colon stands for as many
zeros as are missing. -/
def address? (text : List Char) : Option (List Nat) := do
  match cutDoubleColon text with
  | none =>
    let found ← groups? true (groupsOf text)
    if found.length = 8 then some found else none
  | some (before, after) =>
    let left ← groups? false (groupsOf before)
    let right ← groups? true (groupsOf after)
    if left.length + right.length < 8 then
      some (left ++ List.replicate (8 - left.length - right.length) 0 ++ right)
    else none

/-- The number of zeros at the start of a list. -/
def zeros (words : List Nat) : Nat :=
  (words.takeWhile (· = 0)).length

/-- Where the first of the longest runs of at least two zeros starts, and its
length. -/
def longestZeros (words : List Nat) : Option (Nat × Nat) :=
  (List.range words.length).foldl (fun best i =>
    let n := zeros (words.drop i)
    if 2 ≤ n ∧ (best.map (·.2)).getD 0 < n then some (i, n) else best) none

/-- A number in lower-case hexadecimal digits. -/
def hex (n : Nat) : String :=
  String.ofList (Nat.toDigits 16 n)

/-- An address of eight words, with its longest run of zeros left out. -/
def renderWords (words : List Nat) : String :=
  let join (ws : List Nat) := ":".intercalate (ws.map hex)
  match longestZeros words with
  | none => join words
  | some (i, n) => join (words.take i) ++ "::" ++ join (words.drop (i + n))

/-- An address in brackets in its normal form. -/
def bracketed? (inner : List Char) : Option String :=
  match inner.getLast? with
  | some ']' => (address? inner.dropLast).map fun ws => "[" ++ renderWords ws ++ "]"
  | _ => none

/-! ## Hosts -/

/-- A letter of ASCII in lower case. -/
def lower (c : Char) : Char :=
  if 'A' ≤ c ∧ c ≤ 'Z' then Char.ofNat (c.toNat + 32) else c

/-- A character of a domain in its normal form. -/
def normal (c : Char) : Char :=
  if '\x7f' < c then foldCase c else lower c

/-- A domain in its normal form, in which every label is of ASCII. -/
def domain (name : List Char) : List Char :=
  ['.'].intercalate ((splitOn '.' (name.map normal)).map Punycode.label)

/-- The host of a web address in its normal form. -/
def ofWeb? : List Char → Option String
  | '[' :: inner => bracketed? inner
  | text => do
    let decoded ← Percent.text? (Percent.decode text)
    let name := domain decoded.toList
    if name.isEmpty ∨ decoded.toList.any isBlank ∨ name.any isForbiddenInDomain then none
    else if endsInNumber name then (addressValue? (labels name)).map renderAddress
    else some (String.ofList name)

/-- The host of a URL of any other scheme in its normal form. -/
def ofOther? : List Char → Option String
  | '[' :: inner => bracketed? inner
  | text =>
    if text.any isForbidden then none
    else some (String.ofList (Percent.encode (fun c => ' ' ≤ c ∧ c < '\x7f') text))

end PackageRecipe.Url.Host
