/-!
# Shortest decimals

The shortest decimal numeral that reads back as a given floating-point number.
A finite positive number is `m · 2 ^ e`; the reals that round to it form an
interval around it, which holds its ends exactly if `m` is even. For one, two,
three … digits the two neighbours of the number with that many digits are tried
against the interval; the first that lies inside is taken, and of two the nearer.
-/

namespace PackageRecipe.Decimal

/-- A positive rational number, as numerator and denominator. -/
structure Ratio where
  num : Nat
  den : Nat

/-- The number `n · 2 ^ e`. -/
def Ratio.scale2 (n : Nat) (e : Int) : Ratio :=
  if 0 ≤ e then ⟨n * Nat.pow 2 e.toNat, 1⟩ else ⟨n, Nat.pow 2 (-e).toNat⟩

/-- The number `n · 10 ^ e`. -/
def Ratio.scale10 (n : Nat) (e : Int) : Ratio :=
  if 0 ≤ e then ⟨n * Nat.pow 10 e.toNat, 1⟩ else ⟨n, Nat.pow 10 (-e).toNat⟩

/-- Whether one number is less than another. -/
def Ratio.lt (a b : Ratio) : Bool :=
  a.num * b.den < b.num * a.den

/-- The largest `n` with `n · 10 ^ e` at most the number. -/
def Ratio.floor10 (a : Ratio) (e : Int) : Nat :=
  if 0 ≤ e then a.num / (a.den * Nat.pow 10 e.toNat)
  else a.num * Nat.pow 10 (-e).toNat / a.den

/-- Four times the number `m · 2 ^ e` and the two ends of the interval of the
reals that round to it, in quarters of the last place. The lower half of the
interval is narrower when `m` is the least mantissa of its binade. -/
structure Rounding where
  value : Ratio
  low : Ratio
  high : Ratio
  /-- Whether the ends belong to the interval. -/
  closed : Bool

/-- The bit for the sign in the bits of a number. -/
def signBit : Nat := 0x8000000000000000

/-- The bit in front of the fraction, which is not stored. -/
def leadingBit : Nat := 0x10000000000000

/-- The number of stored exponents. -/
def exponents : Nat := 0x800

/-- The reals that round to the number with the given bits, which is positive
and finite. -/
def Rounding.ofBits (bits : Nat) : Rounding :=
  let fraction := bits % leadingBit
  let exponent := bits / leadingBit % exponents
  let m := if exponent = 0 then fraction else fraction + leadingBit
  let e : Int := (if exponent = 0 then 1 else exponent : Nat) - 1075 - 2
  let below := if fraction = 0 ∧ 1 < exponent then 1 else 2
  ⟨.scale2 (4 * m) e, .scale2 (4 * m - below) e, .scale2 (4 * m + 2) e, m % 2 = 0⟩

/-- Whether `n · 10 ^ e` rounds to the number. -/
def Rounding.holds (r : Rounding) (n : Nat) (e : Int) : Bool :=
  let x := Ratio.scale10 n e
  if r.closed then !x.lt r.low && !r.high.lt x else r.low.lt x && x.lt r.high

/-- The least `p` with the number below `10 ^ p`, searched from `p` downwards. -/
def magnitude (a : Ratio) : (steps : Nat) → (p : Int) → Int
  | 0, p => p
  | steps + 1, p => if a.lt (.scale10 1 (p - 1)) then magnitude a steps (p - 1) else p

/-- The neighbour of the number on the grid `10 ^ e` that rounds to it, if any. -/
def Rounding.onGrid (r : Rounding) (e : Int) : Option Nat :=
  let n := r.value.floor10 e
  match r.holds n e, r.holds (n + 1) e with
  | true, false => some n
  | false, true => some (n + 1)
  | false, false => none
  | true, true =>
    let twice := Ratio.scale10 (2 * n + 1) e
    let double : Ratio := ⟨2 * r.value.num, r.value.den⟩
    if double.lt twice then some n
    else if twice.lt double then some (n + 1)
    else if n % 2 = 0 then some n else some (n + 1)

/-- The shortest decimal `n · 10 ^ e`, tried from the grid `10 ^ e` on towards
finer grids. -/
def Rounding.search (r : Rounding) : (steps : Nat) → (e : Int) → Nat × Int
  | 0, e => (r.value.floor10 e, e)
  | steps + 1, e =>
    match r.onGrid e with
    | some n => (n, e)
    | none => r.search steps (e - 1)

/-- The number without the zeros at its end, and how many there were. -/
def stripZeros (n : Nat) : Nat × Nat :=
  if _h : 0 < n ∧ n % 10 = 0 then
    let (m, k) := stripZeros (n / 10)
    (m, k + 1)
  else (n, 0)
termination_by n
decreasing_by omega

/-- The digits `n` and the exponent `e` of the shortest decimal `n · 10 ^ e` that
reads back as the positive finite number with the given bits. -/
def shortest (bits : Nat) : Nat × Int :=
  let r := Rounding.ofBits bits
  let p := magnitude r.value 700 310
  let (n, e) := r.search 17 (p - 1)
  let (m, k) := stripZeros n
  (m, e + k)

/-- How a floating-point number is written: where positional notation ends. -/
structure Layout where
  /-- The most digits before the point in positional notation. -/
  maxPlaces : Int
  /-- The most zeros behind the point in front of the first digit. -/
  maxZeros : Int

/-- Writes the decimal `n · 10 ^ e`, always with a fraction or an exponent. -/
def Layout.write (f : Layout) (n : Nat) (e : Int) : String :=
  let digits := (toString n).toList
  let places : Int := digits.length + e
  if 0 ≤ e ∧ places ≤ f.maxPlaces then
    String.ofList (digits ++ List.replicate e.toNat '0') ++ ".0"
  else if 0 < places ∧ places ≤ f.maxPlaces then
    String.ofList (digits.take places.toNat ++ '.' :: digits.drop places.toNat)
  else if -f.maxZeros ≤ places ∧ places ≤ 0 then
    "0." ++ String.ofList (List.replicate (-places).toNat '0' ++ digits)
  else
    let mantissa := match digits with
      | d :: d' :: ds => d :: '.' :: d' :: ds
      | ds => ds
    String.ofList mantissa ++ "e" ++ toString (places - 1)

/-- Writes the decimal `n · 10 ^ e` without an exponent. -/
def positional (n : Nat) (e : Int) : String :=
  let digits := (toString n).toList
  let places : Int := digits.length + e
  if 0 ≤ e then String.ofList (digits ++ List.replicate e.toNat '0')
  else if 0 < places then
    String.ofList (digits.take places.toNat ++ '.' :: digits.drop places.toNat)
  else "0." ++ String.ofList (List.replicate (-places).toNat '0' ++ digits)

end PackageRecipe.Decimal
