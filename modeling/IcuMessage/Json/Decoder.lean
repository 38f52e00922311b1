/-
Decoding what has been read as a JSON value: the leaves, lists, and values
that may be null. A decoder does not look at what it is not asked for.
-/
import IcuMessage.Json.Error

namespace IcuMessage.Json

def Decoder (α : Type) : Type :=
  Value → Except Error α

namespace Decoder

instance : Functor Decoder where
  map f decode value := (decode value).map f

def string : Decoder String
  | .string s => .ok s
  | value => .error (.wrongType value.found "a string")

def bool : Decoder Bool
  | .bool b => .ok b
  | value => .error (.wrongType value.found "a boolean")

/-- An integer is never wrapped or rounded to fit. -/
def int64 : Decoder Int64
  | .int n =>
    if Int64.minValue.toInt ≤ n ∧ n ≤ Int64.maxValue.toInt then .ok (Int64.ofInt n)
    else .error (.wrongValue (.int n) "i64")
  | value => .error (.wrongType value.found "i64")

def list {α : Type} (item : Decoder α) : Decoder (List α)
  | .array items => items.mapM item
  | value => .error (.wrongType value.found "a sequence")

def nullable {α : Type} (decode : Decoder α) : Decoder (Option α)
  | .null => .ok none
  | value => (decode value).map some

end Decoder

end IcuMessage.Json
