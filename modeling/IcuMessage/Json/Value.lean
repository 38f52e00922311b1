/-
JSON values. The members of an object keep their order and their repetitions:
which of them count is decided by whoever reads the object.
-/
import IcuMessage.Decimal.Shortest
import IcuMessage.Text.Quoted

namespace IcuMessage.Json

inductive Value where
  | null
  | bool (value : Bool)
  | int (value : Int)
  | float (bits : UInt64)
  | string (value : String)
  | array (items : List Value)
  | object (members : List (String × Value))
  deriving Inhabited

/-- The text of a double, from its bits: the shortest decimal that reads back, positional from
`0.00001` to below `1e16`. A point is always there, and a sign before every exponent. -/
def floatText (bits : UInt64) : List Char :=
  let b := Decimal.Binary.ofBits bits
  let (digits, exponent) := Decimal.shortest b
  let sign := if b.negative then ['-'] else []
  let point : Int := digits.length + exponent
  sign ++
    if digits = [] then ['0', '.', '0']
    else if point < -4 then scientific digits (point - 1)
    else if point ≤ 0 then ['0', '.'] ++ List.replicate (-point).toNat '0' ++ digits
    else if 16 < point then scientific digits (point - 1)
    else if exponent < 0 then digits.take point.toNat ++ ['.'] ++ digits.drop point.toNat
    else digits ++ List.replicate exponent.toNat '0' ++ ['.', '0']
where
  scientific (digits : List Char) (exponent : Int) : List Char :=
    digits.take 1 ++ (if digits.drop 1 = [] then [] else '.' :: digits.drop 1) ++ ['e'] ++
      (if exponent < 0 then [] else ['+']) ++ Decimal.integer exponent

/-- What stands where something else was expected: a scalar, or only the kind of a container. -/
inductive Found where
  | null
  | bool (value : Bool)
  | int (value : Int)
  | float (bits : UInt64)
  | string (value : String)
  | array
  | object
  deriving DecidableEq, Repr

namespace Found

def text : Found → List Char
  | null => "null".toList
  | bool value => "boolean `".toList ++ (toString value).toList ++ "`".toList
  | int value => "integer `".toList ++ Decimal.integer value ++ "`".toList
  | float bits => "floating point `".toList ++ floatText bits ++ "`".toList
  | string value => "string ".toList ++ Text.quoted value.toList
  | array => "sequence".toList
  | object => "map".toList

end Found

def Value.found : Value → Found
  | null => .null
  | bool value => .bool value
  | int value => .int value
  | float bits => .float bits
  | string value => .string value
  | array _ => .array
  | object _ => .object

end IcuMessage.Json
