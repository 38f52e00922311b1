/-
Number literals. A literal is a sign, whole digits without a leading zero, and
optionally a fraction and an exponent. Without the last two it denotes an
integer, if that fits 64 bits; every other literal, and `-0`, denotes a double.

The double of a literal is its significand, as far as that fits 64 bits,
multiplied or divided by a power of ten: two roundings, so not always the
double nearest to the literal.
-/
import IcuMessage.Json.Error

namespace IcuMessage.Json

/-- A literal taken apart. There are fraction digits if and only if there is a point. -/
structure Literal where
  negative : Bool
  whole : List Char
  fraction : List Char
  exponent : Option Int
  deriving DecidableEq, Repr

namespace Literal

/-! ## Scanning

`atEnd` is the error of a literal that the end of the text cuts off. -/

def digitsOr (atEnd : SyntaxError) (text : List Char) : Except Error (List Char × List Char) :=
  match text.span Char.isDigit with
  | ([], []) => fail atEnd
  | ([], _ :: _) => fail .invalidNumber
  | (digits, rest) => .ok (digits, rest)

def scanWhole (atEnd : SyntaxError) : List Char → Except Error (List Char × List Char)
  | '0' :: c :: rest => if c.isDigit then fail .invalidNumber else .ok (['0'], c :: rest)
  | text => digitsOr atEnd text

def scanFraction (atEnd : SyntaxError) : List Char → Except Error (List Char × List Char)
  | '.' :: rest => digitsOr atEnd rest
  | text => .ok ([], text)

def scanSign : List Char → Bool × List Char
  | '-' :: rest => (true, rest)
  | '+' :: rest => (false, rest)
  | text => (false, text)

def scanExponent (atEnd : SyntaxError) : List Char → Except Error (Option Int × List Char)
  | [] => .ok (none, [])
  | c :: rest =>
    if c = 'e' || c = 'E' then do
      let (negative, rest) := scanSign rest
      let (digits, rest) ← digitsOr atEnd rest
      let size : Int := Decimal.value digits
      .ok (some (if negative then -size else size), rest)
    else .ok (none, c :: rest)

def scanUnsigned (atEnd : SyntaxError) (negative : Bool) (text : List Char) :
    Except Error (Literal × List Char) := do
  let (whole, rest) ← scanWhole atEnd text
  let (fraction, rest) ← scanFraction atEnd rest
  let (exponent, rest) ← scanExponent atEnd rest
  .ok (⟨negative, whole, fraction, exponent⟩, rest)

def scan (atEnd : SyntaxError) : List Char → Except Error (Literal × List Char)
  | '-' :: rest => scanUnsigned atEnd true rest
  | text => scanUnsigned atEnd false text

/-! ## Value -/

/-- The significand takes digits as long as it stays below `2 ^ 64`; whole digits that do not
fit any more only count. -/
def takeWhole (significand dropped : Nat) : List Char → Nat × Nat
  | [] => (significand, dropped)
  | c :: digits =>
    let next := 10 * significand + (c.toNat - '0'.toNat)
    if dropped = 0 ∧ next < UInt64.size then takeWhole next 0 digits
    else takeWhole significand (dropped + 1) digits

/-- Fraction digits are left out from the first one on that does not fit. -/
def takeFraction (significand taken : Nat) : List Char → Nat × Nat
  | [] => (significand, taken)
  | c :: digits =>
    let next := 10 * significand + (c.toNat - '0'.toNat)
    if next < UInt64.size then takeFraction next (taken + 1) digits else (significand, taken)

def powerOfTen (n : Nat) : Float :=
  Float.ofScientific 1 false n

/-- Division in steps of the greatest power of ten that a double can hold. -/
def divide (x : Float) (n : Nat) : Float :=
  if n ≤ 308 then x / powerOfTen n
  else if x == 0 then x
  else divide (x / powerOfTen 308) (n - 308)
termination_by n

/-- The significand scaled by a power of ten, unless that is too large for a double. -/
def scale (significand : Nat) (exponent : Int) : Except Error Float :=
  let x := Float.ofScientific significand false 0
  if exponent < 0 then .ok (divide x (-exponent).toNat)
  else if significand = 0 then .ok x
  else if 308 < exponent then fail .numberOutOfRange
  else
    let product := x * powerOfTen exponent.toNat
    if product.isInf then fail .numberOutOfRange else .ok product

def toFloat (l : Literal) : Except Error Float := do
  let (significand, dropped) := takeWhole 0 0 l.whole
  let (significand, taken) := takeFraction significand 0 l.fraction
  let x ← scale significand (dropped - taken + l.exponent.getD 0)
  .ok (if l.negative then -x else x)

/-- The integer a literal denotes, if it is written as one and has its place in 64 bits. -/
def toInt? (l : Literal) : Option Int :=
  let n := Decimal.value l.whole
  if l.fraction ≠ [] || l.exponent ≠ none then none
  else if l.negative then
    if 0 < n ∧ Int64.minValue.toInt ≤ -(n : Int) then some (-(n : Int)) else none
  else if n < UInt64.size then some n else none

def value (l : Literal) : Except Error Value :=
  match l.toInt? with
  | some n => .ok (.int n)
  | none => do
    let x ← l.toFloat
    .ok (.float x.toBits)

end Literal

end IcuMessage.Json
