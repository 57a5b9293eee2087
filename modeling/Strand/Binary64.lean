/-!
# 64-bit floats as bit patterns

The compiler never computes with floats. It reads a decimal literal, keeps the bit
pattern of the nearest 64-bit float, and prints it again in a listing. Both
directions are done here in exact natural-number arithmetic.

A finite magnitude is `m · 2 ^ (p - 1074)` with `m < 2 ^ 53`, and `2 ^ 52 ≤ m`
unless `p = 0`. The pattern of a magnitude is then `m` when `m < 2 ^ 52`, and
otherwise `p + 1` in the exponent field over `m - 2 ^ 52`.
-/

namespace Strand.Binary64

/-- The bit that makes a float negative. -/
def signBit : UInt64 := 0x8000000000000000

/-- The pattern of positive infinity. -/
def infinity : UInt64 := 0x7FF0000000000000

def isNegative (bits : UInt64) : Bool := signBit ≤ bits

/-- The pattern without its sign. -/
def magnitude (bits : UInt64) : UInt64 := if isNegative bits then bits - signBit else bits

def isNaN (bits : UInt64) : Bool := infinity < magnitude bits

/-- Equality of values: the two zeros are equal and a not-a-number equals nothing. -/
def sameValue (a b : UInt64) : Bool :=
  !isNaN a && !isNaN b && (a == b || (magnitude a == 0 && magnitude b == 0))

/-! ## Reading decimals -/

/-- The quotient rounded to the nearest whole number, a half going to the even one. -/
def roundDiv (num den : Nat) : Nat :=
  let q := num / den
  let r := num % den
  if den < 2 * r || (2 * r == den && q % 2 == 1) then q + 1 else q

/-- The pattern of `m · 2 ^ (p - 1074)`. -/
def pattern (m p : Nat) : Nat :=
  if m < 4503599627370496 then m else (p + 1) * 4503599627370496 + (m - 4503599627370496)

/-- The pattern nearest to `num / den`, or `none` when it is too large for a float. -/
def ofRatio? (num den : Nat) : Option UInt64 :=
  let scaled := num * Nat.pow 2 1074
  let width := Nat.log2 (scaled / den)
  let p := width - 52
  let m := roundDiv scaled (den * Nat.pow 2 p)
  let (m, p) := if m == 9007199254740992 then (4503599627370496, p + 1) else (m, p)
  if 2045 < p then none else some (UInt64.ofNat (pattern m p))

/-- The number of decimal digits of a natural number. -/
def digitCount (n : Nat) : Nat := (Nat.toDigits 10 n).length

/-- The pattern nearest to `mantissa · 10 ^ exponent`, or `none` when that is too
large. Exponents far outside the range of floats are settled without computing the
power. -/
def ofDecimal? (mantissa : Nat) (exponent : Int) : Option UInt64 :=
  if mantissa = 0 then some 0
  else
    let top := exponent + digitCount mantissa
    if 400 < top then none
    else if top < -400 then some 0
    else if 0 ≤ exponent then ofRatio? (mantissa * Nat.pow 10 exponent.toNat) 1
    else ofRatio? mantissa (Nat.pow 10 (-exponent).toNat)

/-! ## Printing the fewest digits that read back -/

/-- The significand and unit exponent of a finite magnitude. -/
def parts (magnitude : UInt64) : Nat × Nat :=
  let n := magnitude.toNat
  let field := n / 4503599627370496
  if field = 0 then (n, 0) else (n % 4503599627370496 + 4503599627370496, field - 1)

/-- The power of ten just above `num / den`: the least `e` with `num / den < 10 ^ e`. -/
def decimalExponent (num den : Nat) : Int :=
  if den ≤ num then digitCount (num / den)
  else
    let d := digitCount (den / num)
    if num * Nat.pow 10 (d - 1) = den then 2 - d else 1 - d

/-- The reals that round to a float, as numerators over one denominator. The ends
belong to the interval when the significand is even. -/
structure Rounding where
  low : Nat
  value : Nat
  high : Nat
  den : Nat
  closed : Bool

/-- The interval of a finite magnitude that is not zero. Below a power of two the
next float is half as far away. -/
def rounding (m p : Nat) : Rounding :=
  let below := if m = 4503599627370496 ∧ 0 < p then 1 else 2
  let (scale, den) := if 1076 ≤ p then (Nat.pow 2 (p - 1076), 1) else (1, Nat.pow 2 (1076 - p))
  { low := (4 * m - below) * scale
    value := 4 * m * scale
    high := (4 * m + 2) * scale
    den := den
    closed := m % 2 == 0 }

/-- Whether `c · 10 ^ k` lies in the interval. -/
def Rounding.contains (r : Rounding) (c : Nat) (k : Int) : Bool :=
  let x := if 0 ≤ k then c * Nat.pow 10 k.toNat * r.den else c * r.den
  let unit := if 0 ≤ k then 1 else Nat.pow 10 (-k).toNat
  if r.closed then r.low * unit ≤ x && x ≤ r.high * unit
  else r.low * unit < x && x < r.high * unit

/-- The point of the grid of multiples of `10 ^ k` that reads back and is nearest to
the value, if one reads back. Of two equally near points it is the larger. -/
def Rounding.onGrid? (r : Rounding) (k : Int) : Option Nat :=
  let num := if 0 ≤ k then r.value else r.value * Nat.pow 10 (-k).toNat
  let den := if 0 ≤ k then r.den * Nat.pow 10 k.toNat else r.den
  let c := num / den
  match r.contains c k, r.contains (c + 1) k with
  | true, true => some (if den ≤ 2 * (num % den) then c + 1 else c)
  | true, false => some c
  | false, true => some (c + 1)
  | false, false => none

/-- The coarsest grid point that reads back, as digits and a power of ten. Seventeen
digits always suffice. -/
def shortest (m p : Nat) : Nat × Int :=
  let r := rounding m p
  let e := decimalExponent r.value r.den
  let found := (List.range 17).findSome? fun n =>
    let k : Int := e - (n + 1 : Nat)
    (r.onGrid? k).map fun c => (c, k)
  found.getD (0, 0)

/-- Drop the zeros at the end of a number, counting them into the power of ten. -/
def trimZeros : Nat → Nat × Int → Nat × Int
  | 0, d => d
  | fuel + 1, (c, k) => if c ≠ 0 ∧ c % 10 = 0 then trimZeros fuel (c / 10, k + 1) else (c, k)

/-- `c · 10 ^ k` written out without an exponent. -/
def positional (c : Nat) (k : Int) : String :=
  let digits := Nat.toDigits 10 c
  if 0 ≤ k then
    String.ofList (digits ++ List.replicate k.toNat '0')
  else
    let places := (-k).toNat
    let padded := List.replicate (places + 1 - digits.length) '0' ++ digits
    let whole := padded.length - places
    String.ofList (padded.take whole ++ '.' :: padded.drop whole)

/-- A float as a listing shows it: never an exponent, no point after a whole number,
and a sign before every negative float, zero included. -/
def text (bits : UInt64) : String :=
  if isNaN bits then "NaN"
  else
    let size := magnitude bits
    let body :=
      if size = infinity then "inf"
      else if size = 0 then "0"
      else
        let (m, p) := parts size
        let (c, k) := trimZeros 17 (shortest m p)
        positional c k
    if isNegative bits then "-" ++ body else body

end Strand.Binary64
