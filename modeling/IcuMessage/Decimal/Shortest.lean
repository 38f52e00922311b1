/-
The fewest decimal digits that read back as a given double. A finite double
is `m * 2^q`; the reals that round to it lie between the midpoints to its
neighbours, the midpoints included when `m` is even. For one digit, two
digits and so on the two decimals next to the double are tried: the first
count of digits with a decimal in that interval wins, of two such decimals the
nearer one, and of two equally near the even one.

All of it is exact arithmetic on natural numbers.
-/
import IcuMessage.Decimal

namespace IcuMessage.Decimal

/-- The finite double of magnitude `mantissa * 2 ^ exponent`. -/
structure Binary where
  negative : Bool
  mantissa : Nat
  exponent : Int
  deriving DecidableEq, Repr

namespace Binary

/-- Decodes the bits of a double that is neither infinite nor a NaN. -/
def ofBits (bits : UInt64) : Binary :=
  let biased : Nat := bits.toNat / Nat.pow 2 52 % Nat.pow 2 11
  let fraction : Nat := bits.toNat % Nat.pow 2 52
  { negative := bits.toNat / Nat.pow 2 63 = 1
    mantissa := if biased = 0 then fraction else fraction + Nat.pow 2 52
    exponent := if biased = 0 then -1074 else (biased : Int) - 1075 }

/-- Below a power of two the next smaller double is only half as far away as the next larger. -/
def isPowerOfTwo (b : Binary) : Bool :=
  b.mantissa = Nat.pow 2 52 && b.exponent ≠ -1074

end Binary

/-- The reals that round to a double, in quarters of its last place: the double is
`value / scale`, the ends of the interval are `low / scale` and `high / scale`. -/
structure Rounding where
  low : Nat
  value : Nat
  high : Nat
  scale : Nat
  closed : Bool
  deriving DecidableEq, Repr

namespace Rounding

def ofBinary (b : Binary) : Rounding :=
  let unit := Nat.pow 2 (b.exponent - 2).toNat
  { low := (4 * b.mantissa - if b.isPowerOfTwo then 1 else 2) * unit
    value := 4 * b.mantissa * unit
    high := (4 * b.mantissa + 2) * unit
    scale := Nat.pow 2 (2 - b.exponent).toNat
    closed := b.mantissa % 2 = 0 }

/-- Compares `digits * 10 ^ exponent` with `numerator / scale`. -/
def compareWith (scale digits : Nat) (exponent : Int) (numerator : Nat) : Ordering :=
  compare (digits * Nat.pow 10 exponent.toNat * scale) (numerator * Nat.pow 10 (-exponent).toNat)

def contains (r : Rounding) (digits : Nat) (exponent : Int) : Bool :=
  match compareWith r.scale digits exponent r.low, compareWith r.scale digits exponent r.high with
  | .gt, .lt => true
  | .eq, _ | _, .eq => r.closed
  | _, _ => false

/-- How many times ten a value below one has to be taken to reach one. -/
def leadingZeros (value scale : Nat) : Nat → Nat
  | 0 => 0
  | fuel + 1 => if scale ≤ value then 0 else leadingZeros (value * 10) scale fuel + 1

/-- The exponent of the first digit: no double is below `10 ^ -324`. -/
def firstExponent (r : Rounding) : Int :=
  if r.scale ≤ r.value then (natural (r.value / r.scale)).length - 1
  else -(leadingZeros r.value r.scale 324 : Int)

/-- The multiple of `10 ^ exponent` at or next below the value. -/
def floorAt (r : Rounding) (exponent : Int) : Nat :=
  r.value * Nat.pow 10 (-exponent).toNat / (r.scale * Nat.pow 10 exponent.toNat)

/-- The better of the two decimals next to the value on one grid, if any lies in the interval. -/
def nearest? (r : Rounding) (exponent : Int) : Option Nat :=
  let below := r.floorAt exponent
  match r.contains below exponent, r.contains (below + 1) exponent with
  | true, true =>
    match compareWith r.scale (2 * below + 1) exponent (2 * r.value) with
    | .lt => some (below + 1)
    | .gt => some below
    | .eq => some (if below % 2 = 0 then below else below + 1)
  | true, false => some below
  | false, true => some (below + 1)
  | false, false => none

/-- Tries finer and finer grids, `count` of them. Seventeen digits always suffice for a double. -/
def search (r : Rounding) (exponent : Int) : Nat → Nat × Int
  | 0 => (r.floorAt exponent, exponent)
  | count + 1 =>
    match r.nearest? exponent with
    | some digits => (digits, exponent)
    | none => search r (exponent - 1) count

end Rounding

/-- Drops the zeros at the end of a run of digits, counting them into the exponent. -/
def trimZeros (digits : List Char) (exponent : Int) : List Char × Int :=
  let zeros := digits.reverse.takeWhile (· = '0')
  (digits.take (digits.length - zeros.length), exponent + zeros.length)

/-- The digits of the shortest decimal that reads back as the double, first and last not zero,
and the power of ten they count. Zero has no digits. -/
def shortest (b : Binary) : List Char × Int :=
  if b.mantissa = 0 then ([], 0)
  else
    let r := Rounding.ofBinary b
    let (digits, exponent) := r.search r.firstExponent 17
    trimZeros (natural digits) exponent

end IcuMessage.Decimal
