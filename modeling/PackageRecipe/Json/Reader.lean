import PackageRecipe.Json

/-!
# Reading JSON

`Json.read?` reads one JSON value that fills a text. Arrays and objects may be
nested up to a fixed depth. Numbers are read in two steps: the digits that fit
into 64 bits form the significand, and a power of ten scales it.
-/

namespace PackageRecipe.Json

/-- What is left of the text `s` after something was read from it. -/
abbrev Rest (s : List Char) := { r : List Char // r.length < s.length }

/-- Blanks between the parts of a value. -/
def isSpace (c : Char) : Bool :=
  c == ' ' || c == '\n' || c == '\t' || c == '\r'

/-- The text behind the blanks at its head. -/
def skipSpace (s : List Char) : List Char :=
  s.dropWhile isSpace

theorem length_skipSpace_le (s : List Char) : (skipSpace s).length ≤ s.length :=
  (List.dropWhile_suffix isSpace).length_le

/-! ### Numbers -/

/-- The largest significand. -/
def maxSignificand : Nat := 0xFFFFFFFFFFFFFFFF

/-- The number of integers of 64 bits that are negative. -/
def negatives : Nat := 0x8000000000000000

/-- Appends decimal digits to a significand as long as it fits into 64 bits.
Answers the significand and the number of digits appended. -/
def appendDigits (n : Nat) : List Char → Nat × Nat
  | [] => (n, 0)
  | c :: r =>
    let n' := n * 10 + (c.toNat - '0'.toNat)
    if n' ≤ maxSignificand then
      let (m, k) := appendDigits n' r
      (m, k + 1)
    else (n, 0)

/-- The parts of a number as written. -/
structure NumberText where
  negative : Bool
  whole : List Char
  /-- The digits behind the point, absent without a point. -/
  fraction : Option (List Char)
  /-- The sign (true if negative) and the digits of the exponent. -/
  exponent : Option (Bool × List Char)

/-- The largest power of ten among the floating-point numbers. -/
def maxPower : Nat := 308

/-- A significand scaled by a power of ten with one rounding, or with one more
for each factor of `10 ^ 308` by which the exponent is too small. There is no
result where it would be infinite. -/
def scale (significand : Float) (exponent : Int) : Option Float :=
  if 0 ≤ exponent then
    if exponent.toNat ≤ maxPower then
      let x := significand * Float.ofScientific 1 false exponent.toNat
      if x.isInf then none else some x
    else if significand == 0 then some significand else none
  else go significand exponent.natAbs
where
  /-- Divides by `10 ^ k`. -/
  go (x : Float) (k : Nat) : Option Float :=
    if k ≤ maxPower then some (x / Float.ofScientific 1 false k)
    else if x == 0 then some x
    else go (x / Float.ofScientific 1 false maxPower) (k - maxPower)
  termination_by k
  decreasing_by simp only [maxPower] at *; omega

/-- The largest exponent that is read as it stands. -/
def maxExponent : Nat := 0x7FFFFFFF

/-- The number that is written, unless it is too large. -/
def NumberText.value? (t : NumberText) : Option Number :=
  let (n, kept) := appendDigits 0 t.whole
  let dropped := t.whole.length - kept
  if t.fraction.isNone ∧ t.exponent.isNone ∧ dropped = 0 ∧
      (if t.negative then 0 < n ∧ n ≤ negatives else True) then
    some (.integer (if t.negative then -(n : Int) else n))
  else
    let (m, places) := appendDigits n (t.fraction.getD [])
    let shift : Int := (dropped : Int) - places
    let sign (x : Float) : Number := .float (if t.negative then -x else x)
    match t.exponent with
    | none => (scale m.toFloat shift).map sign
    | some (negative, digits) =>
      let e := digits.foldl (fun e c => e * 10 + (c.toNat - '0'.toNat)) 0
      if e ≤ maxExponent then
        (scale m.toFloat (if negative then shift - e else shift + e)).map sign
      else if m ≠ 0 ∧ !negative then none
      else some (sign 0)

/-- The digits at the head of a text and what follows them. -/
def digits (s : List Char) : List Char × List Char :=
  s.span Char.isDigit

/-- Reads the exponent of a number, if there is one. -/
def exponentPart (s : List Char) : Option (Option (Bool × List Char) × List Char) :=
  match s with
  | c :: r =>
    if c == 'e' || c == 'E' then
      let (negative, r) := match r with
        | '-' :: r' => (true, r')
        | '+' :: r' => (false, r')
        | r' => (false, r')
      let (ds, r) := digits r
      if ds.isEmpty then none else some (some (negative, ds), r)
    else some (none, s)
  | [] => some (none, [])

/-- Reads the fraction of a number, if there is one. -/
def fractionPart (s : List Char) : Option (Option (List Char) × List Char) :=
  match s with
  | '.' :: r =>
    let (ds, r) := digits r
    if ds.isEmpty then none else some (some ds, r)
  | _ => some (none, s)

/-- Reads a number. A zero in front may not be followed by another digit. -/
def numberText (s : List Char) : Option (NumberText × List Char) :=
  let (negative, s) := match s with
    | '-' :: r => (true, r)
    | r => (false, r)
  let (whole, r) := digits s
  if whole.isEmpty || (whole.head? == some '0' && whole.length != 1) then none
  else do
    let (fraction, r) ← fractionPart r
    let (exponent, r) ← exponentPart r
    some (⟨negative, whole, fraction, exponent⟩, r)

/-! ### Strings -/

/-- The value of a hexadecimal digit. -/
def hexDigit? (c : Char) : Option Nat :=
  if c.isDigit then some (c.toNat - '0'.toNat)
  else if 'a' ≤ c ∧ c ≤ 'f' then some (c.toNat - 'a'.toNat + 10)
  else if 'A' ≤ c ∧ c ≤ 'F' then some (c.toNat - 'A'.toNat + 10)
  else none

/-- The value of four hexadecimal digits. -/
def hex4? (a b c d : Char) : Option Nat := do
  let a ← hexDigit? a
  let b ← hexDigit? b
  let c ← hexDigit? c
  let d ← hexDigit? d
  some (((a * 16 + b) * 16 + c) * 16 + d)

/-- The character that a simple escape stands for. -/
def escape? : Char → Option Char
  | '"' => some '"'
  | '\\' => some '\\'
  | '/' => some '/'
  | 'b' => some '\x08'
  | 'f' => some '\x0c'
  | 'n' => some '\n'
  | 'r' => some '\r'
  | 't' => some '\t'
  | _ => none

/-- Reads a string behind its opening quote. Control characters must be escaped,
and an escaped surrogate must come in a pair. -/
def stringBody (s : List Char) : Option (List Char × Rest s) :=
  match s with
  | [] => none
  | '"' :: r => some ([], ⟨r, by simp⟩)
  | '\\' :: 'u' :: a :: b :: c :: d :: r => do
    let n ← hex4? a b c d
    if n < 0xD800 ∨ 0xDFFF < n then
      let (cs, ⟨r', h⟩) ← stringBody r
      some (Char.ofNat n :: cs, ⟨r', by simp only [List.length_cons]; omega⟩)
    else if 0xDBFF < n then none
    else match hr : r with
      | '\\' :: 'u' :: a' :: b' :: c' :: d' :: r₂ => do
        let m ← hex4? a' b' c' d'
        if 0xDC00 ≤ m ∧ m ≤ 0xDFFF then
          let (cs, ⟨r', h⟩) ← stringBody r₂
          some (Char.ofNat (0x10000 + (n - 0xD800) * 0x400 + (m - 0xDC00)) :: cs,
            ⟨r', by simp only [hr, List.length_cons]; omega⟩)
        else none
      | _ => none
  | '\\' :: c :: r => do
    let c ← escape? c
    let (cs, ⟨r', h⟩) ← stringBody r
    some (c :: cs, ⟨r', by simp only [List.length_cons]; omega⟩)
  | c :: r =>
    if c.toNat < 0x20 ∨ c = '\\' then none
    else do
      let (cs, ⟨r', h⟩) ← stringBody r
      some (c :: cs, ⟨r', by simp only [List.length_cons]; omega⟩)
termination_by s.length

/-! ### Values -/

/-- The depth at which arrays and objects can no longer be opened. -/
def maxDepth : Nat := 128

/-- The text behind the given characters, if it begins with them. -/
def dropLiteral (literal s : List Char) : Option (List Char) :=
  if literal.isPrefixOf s then some (s.drop literal.length) else none

mutual

/-- Reads a value at the head of a text. -/
def readValue (depth : Nat) (s : List Char) : Option (Json × List Char) :=
  match s with
  | [] => none
  | '"' :: r => (stringBody r).map fun (cs, rest) => (.string (String.ofList cs), rest.1)
  | '[' :: r =>
    if depth ≤ 1 then none
    else match _h : skipSpace r with
      | ']' :: r' => some (.array [], r')
      | r' => (readItems (depth - 1) r').map fun (items, rest) => (.array items, rest)
  | '{' :: r =>
    if depth ≤ 1 then none
    else match _h : skipSpace r with
      | '}' :: r' => some (.object [], r')
      | r' => (readMembers (depth - 1) r').map fun (members, rest) => (.object members, rest)
  | s =>
    match dropLiteral "null".toList s, dropLiteral "true".toList s,
        dropLiteral "false".toList s with
    | some r, _, _ => some (.null, r)
    | _, some r, _ => some (.bool true, r)
    | _, _, some r => some (.bool false, r)
    | none, none, none => do
      let (t, r) ← numberText s
      let n ← t.value?
      some (.number n, r)
termination_by (s.length, 1)
decreasing_by
  all_goals
    have h := congrArg List.length _h
    have := length_skipSpace_le r
    simp only [List.length_cons] at *
    apply Prod.Lex.left
    omega

/-- Reads the items of an array up to and with its closing bracket. -/
def readItems (depth : Nat) (s : List Char) : Option (List Json × List Char) := do
  let (item, r) ← readValue depth s
  match skipSpace r with
  | ']' :: r => some ([item], r)
  | ',' :: r =>
    if _h : (skipSpace r).length < s.length then
      let (items, rest) ← readItems depth (skipSpace r)
      some (item :: items, rest)
    else none
  | _ => none
termination_by (s.length, 2)
decreasing_by
  · apply Prod.Lex.right; omega
  · apply Prod.Lex.left; assumption

/-- Reads the members of an object up to and with its closing brace. -/
def readMembers (depth : Nat) (s : List Char) : Option (List (String × Json) × List Char) :=
  match s with
  | '"' :: r => do
    let (name, ⟨r₁, _h₁⟩) ← stringBody r
    match _h₂ : skipSpace r₁ with
    | ':' :: r₂ => do
      let (value, r₃) ← readValue depth (skipSpace r₂)
      match skipSpace r₃ with
      | '}' :: r => some ([(String.ofList name, value)], r)
      | ',' :: r₄ =>
        if _h : (skipSpace r₄).length < r.length then
          let (members, rest) ← readMembers depth (skipSpace r₄)
          some ((String.ofList name, value) :: members, rest)
        else none
      | _ => none
    | _ => none
  | _ => none
termination_by (s.length, 0)
decreasing_by
  · apply Prod.Lex.left
    have := length_skipSpace_le r₁
    have := length_skipSpace_le r₂
    have := congrArg List.length _h₂
    simp only [List.length_cons] at *
    omega
  · apply Prod.Lex.left
    simp only [List.length_cons]
    omega

end

/-- Reads one value that fills the text but for blanks around it. -/
def read? (text : String) : Option Json := do
  let (value, rest) ← readValue maxDepth (skipSpace text.toList)
  if (skipSpace rest).isEmpty then some value else none

end PackageRecipe.Json
