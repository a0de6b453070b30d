/-!
# Labels beyond ASCII

A label of a domain with other characters than those of ASCII is written in
letters, digits and hyphens: first the characters of ASCII, then a number for each
other character, in the order of their code points. The number tells how far to
count up until the character and its place in the label are reached; small numbers
take few digits.
-/

namespace PackageRecipe.Url.Punycode

/-! ## Numbers -/

/-- The digit for a number below 36: letters, and figures behind them. -/
def digit (n : Nat) : Char :=
  if n < 26 then Char.ofNat ('a'.toNat + n) else Char.ofNat ('0'.toNat + (n - 26))

/-- The number below which a digit is the last one. It depends on the place of the
digit and on how large numbers are expected to be. -/
def threshold (bias place : Nat) : Nat :=
  max 1 (min 26 (place - bias))

theorem threshold_pos (bias place : Nat) : 1 ≤ threshold bias place := by
  unfold threshold
  omega

/-- A number in digits, the lowest first. Places count in steps of 36. -/
def number (bias place n : Nat) : List Char :=
  let t := threshold bias place
  if _h : n < t then [digit n]
  else digit (t + (n - t) % (36 - t)) :: number bias (place + 36) ((n - t) / (36 - t))
termination_by n
decreasing_by
  have := threshold_pos bias place
  have := Nat.div_le_self (n - threshold bias place) (36 - threshold bias place)
  omega

/-- The bias for numbers of the given size. -/
def biasOf (place size : Nat) : Nat :=
  if 455 < size then biasOf (place + 36) (size / 35) else place + 36 * size / (size + 38)
termination_by size
decreasing_by omega

/-! ## Labels -/

/-- How much of a label has been written. -/
structure Progress where
  text : List Char := []
  /-- How many characters of the label have been written, of any kind. -/
  count : Nat
  /-- How many steps have been counted since the last number. -/
  steps : Nat := 0
  bias : Nat := 72
  /-- Whether no number has been written yet. -/
  isFirst : Bool := true

namespace Progress

/-- Writes a number for a character. -/
def write (p : Progress) : Progress where
  text := p.text ++ number p.bias 36 p.steps
  count := p.count + 1
  steps := 0
  bias :=
    let size := p.steps / if p.isFirst then 700 else 2
    biasOf 0 (size + size / (p.count + 1))
  isFirst := false

/-- Passes a character of the label on the way to those of code point `n`. -/
def pass (n : Nat) (p : Progress) (c : Char) : Progress :=
  if c.toNat < n then { p with steps := p.steps + 1 }
  else if c.toNat = n then p.write
  else p

/-- Writes the characters of the given code points, which are in order; `start` is
the code point that has been counted up to. -/
def writeAll (label : List Char) (start : Nat) : List Nat → Progress → Progress
  | [], p => p
  | n :: rest, p =>
    let p := { p with steps := p.steps + (n - start) * (p.count + 1) }
    let p := label.foldl (pass n) p
    writeAll label (n + 1) rest { p with steps := p.steps + 1 }

end Progress

/-- Whether a character belongs to ASCII. -/
def isPlain (c : Char) : Bool :=
  c.toNat < 0x80

/-- The written form of a label. -/
def encode (label : List Char) : List Char :=
  let plain := label.filter isPlain
  let others := ((label.filter (!isPlain ·)).map Char.toNat).mergeSort.eraseDups
  let p := Progress.writeAll label 0x80 others { count := plain.length }
  plain ++ (if plain.isEmpty then [] else ['-']) ++ p.text

/-- What stands in front of a label that was written this way. -/
def mark : List Char := "xn--".toList

/-- A label as it stands in a domain. -/
def label (text : List Char) : List Char :=
  if text.all isPlain then text else mark ++ encode text

end PackageRecipe.Url.Punycode
