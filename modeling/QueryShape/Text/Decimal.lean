/-!
# Decimals and double-precision numbers

A double is written with the fewest decimal digits that read back to it, always
positionally and without an exponent. The digits are found by exact arithmetic on
natural numbers.

## What this module delivers

- `Binary`: a finite non-negative double as a significand and a power of two, and
  `Binary.readsBack`, which says whether a decimal rounds to it.
- `shortest`: the fewest digits that read back. Of two equally short decimals the
  nearer one is taken, and of two equally near ones the larger.
- `render`: the positional text of a double. Whole numbers have no point, zero
  keeps its sign, and the infinities are written `inf` and `-inf`.
- `toFloat`: the double nearest to a decimal.
-/

set_option autoImplicit false

namespace QueryShape.Decimal

/-- The finite non-negative double `significand * 2 ^ exponent`. -/
structure Binary where
  significand : Nat
  exponent : Int
  /-- The next double below is only half as far away as the next one above. -/
  narrowBelow : Bool

/-- The magnitude stored in the bits of a finite double; the sign bit is ignored. -/
def Binary.ofBits (bits : Nat) : Binary :=
  let field : Nat := bits / Nat.pow 2 52 % Nat.pow 2 11
  let fraction : Nat := bits % Nat.pow 2 52
  if field = 0 then ⟨fraction, -1074, false⟩
  else ⟨Nat.pow 2 52 + fraction, (field : Int) - 1075, fraction = 0 && field > 1⟩

/-- The decimal `digits * 10 ^ exponent`. -/
structure Digits where
  digits : Nat
  exponent : Int
deriving DecidableEq, Repr

/-- The natural number `2 ^ n` for a non-negative exponent, and one otherwise. -/
def twos (exponent : Int) : Nat := Nat.pow 2 exponent.toNat

/-- The natural number `10 ^ n` for a non-negative exponent, and one otherwise. -/
def tens (exponent : Int) : Nat := Nat.pow 10 exponent.toNat

/-- Compares `a * 10 ^ i` with `b * 2 ^ j` exactly, by moving every negative power
to the other side. -/
def compareScaled (a : Nat) (i : Int) (b : Nat) (j : Int) : Ordering :=
  compare (a * tens i * twos (-j)) (b * twos j * tens (-i))

/-- Whether a decimal rounds to a double: it lies between the midpoints towards
the two neighbours, and may coincide with a midpoint when the significand is
even. -/
def Binary.readsBack (x : Binary) (d : Digits) : Bool :=
  let below := if x.narrowBelow then 4 * x.significand - 1 else 4 * x.significand - 2
  let above := 4 * x.significand + 2
  let even := x.significand % 2 == 0
  let low := compareScaled d.digits d.exponent below (x.exponent - 2)
  let high := compareScaled d.digits d.exponent above (x.exponent - 2)
  (low == .gt || (even && low == .eq)) && (high == .lt || (even && high == .eq))

/-- The least exponent `k` with `x < 10 ^ k`, for a positive `x`. The binary
logarithm bounds it from below, and at most two steps are left. -/
def Binary.scale (x : Binary) : Int :=
  let guess := ((x.significand.log2 : Int) + x.exponent) * 30103 / 100000
  let fits (k : Int) : Bool := compareScaled 1 k x.significand x.exponent == .gt
  if fits guess then guess else if fits (guess + 1) then guess + 1 else guess + 2

/-- The two neighbours of `x` on the grid of multiples of `10 ^ exponent` that
read back, reduced to the one to print: the nearer, and the upper one on a tie. -/
def Binary.onGrid? (x : Binary) (exponent : Int) : Option Digits :=
  let numerator := x.significand * twos x.exponent * tens (-exponent)
  let denominator := twos (-x.exponent) * tens exponent
  let lower : Digits := ⟨numerator / denominator, exponent⟩
  let upper : Digits := ⟨numerator / denominator + 1, exponent⟩
  match x.readsBack lower, x.readsBack upper with
  | true, true =>
      if 2 * numerator < (2 * lower.digits + 1) * denominator then some lower else some upper
  | true, false => some lower
  | false, true => some upper
  | false, false => none

/-- The decimal that equals `x`. -/
def Binary.exact (x : Binary) : Digits :=
  if 0 ≤ x.exponent then ⟨x.significand * twos x.exponent, 0⟩
  else ⟨x.significand * Nat.pow 5 (-x.exponent).toNat, x.exponent⟩

/-- The decimal with the fewest digits that reads back to a positive `x`. The
grids are tried from one digit to seventeen. -/
def shortest (x : Binary) : Digits :=
  let scale := x.scale
  ((List.range 17).findSome? (fun n : Nat => x.onGrid? (scale - ((n : Int) + 1)))).getD x.exact

/-- The decimal digits of a natural number, most significant first. -/
def digitsOf (n : Nat) : List Char :=
  Nat.toDigits 10 n

/-- The positional text of a decimal: no exponent, no trailing zeros behind the
point, and no point without digits behind it. -/
def positional (d : Digits) : List Char :=
  let digits := digitsOf d.digits
  if 0 ≤ d.exponent then digits ++ List.replicate d.exponent.toNat '0'
  else
    let places := (-d.exponent).toNat
    let padded := List.replicate (places + 1 - digits.length) '0' ++ digits
    let whole := padded.take (padded.length - places)
    let fraction := ((padded.drop (padded.length - places)).reverse.dropWhile (· == '0')).reverse
    if fraction.isEmpty then whole else whole ++ '.' :: fraction

/-- The text of a double: its sign, then the shortest digits that read back. -/
def render (value : Float) : String :=
  let bits := value.toBits.toNat
  let sign := if bits / Nat.pow 2 63 = 1 then "-" else ""
  if value.isNaN then "NaN"
  else if value.isInf then sign ++ "inf"
  else
    let x := Binary.ofBits bits
    if x.significand = 0 then sign ++ "0"
    else sign ++ String.ofList (positional (shortest x))

/-- The double nearest to `digits * 10 ^ exponent`, with the given sign. Values
beyond the largest double become infinite and values far below the smallest one
become zero, so that no power of ten larger than the digits demand is formed. -/
def toFloat (negative : Bool) (digits : Nat) (exponent : Int) : Float :=
  let top := (digitsOf digits).length + exponent
  let magnitude : Float :=
    if digits = 0 || top < -330 then 0.0
    else if top > 310 then 1.0 / 0.0
    else if 0 ≤ exponent then Float.ofScientific digits false exponent.toNat
    else Float.ofScientific digits true (-exponent).toNat
  if negative then -magnitude else magnitude

end QueryShape.Decimal
