/-
Writing a JSON value without blanks: members in their order, numbers in
decimal, strings with as few escapes as possible.
-/
import IcuMessage.Json.StringLiteral

namespace IcuMessage.Json

/-- Texts with commas between them. -/
def commaSeparated (texts : List (List Char)) : List Char :=
  List.intercalate [','] texts

mutual

def Value.write : Value → List Char
  | .null => "null".toList
  | .bool true => "true".toList
  | .bool false => "false".toList
  | .int n => Decimal.integer n
  | .float bits => floatText bits
  | .string s => StringLiteral.write s
  | .array items => '[' :: commaSeparated (Value.writeItems items) ++ [']']
  | .object members => '{' :: commaSeparated (Value.writeMembers members) ++ ['}']

def Value.writeItems : List Value → List (List Char)
  | [] => []
  | item :: items => item.write :: Value.writeItems items

def Value.writeMembers : List (String × Value) → List (List Char)
  | [] => []
  | (key, value) :: members =>
    (StringLiteral.write key ++ ':' :: value.write) :: Value.writeMembers members

end

end IcuMessage.Json
