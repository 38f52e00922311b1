/-
Reading a JSON value. Everything is read, numbers and strings included, so
what comes out can be looked at in any order later. `room` is how many
containers may be opened one inside another; a text that opens more is refused
where it opens the first too many.
-/
import IcuMessage.Json.Container
import IcuMessage.Json.Number

namespace IcuMessage.Json

/-- Reads a value that is no container, its first character not a blank. -/
def readScalar : List Char → Except Error (Value × List Char)
  | [] => fail .endInValue
  | c :: rest =>
    if c = 'n' then do
      let rest ← expectWord "ull".toList rest
      .ok (.null, rest)
    else if c = 't' then do
      let rest ← expectWord "rue".toList rest
      .ok (.bool true, rest)
    else if c = 'f' then do
      let rest ← expectWord "alse".toList rest
      .ok (.bool false, rest)
    else if c = '"' then do
      let (s, rest) ← StringLiteral.read rest
      .ok (.string s, rest)
    else if c = '-' || c.isDigit then do
      let (literal, rest) ← Literal.scan .endInValue (c :: rest)
      let value ← literal.value
      .ok (value, rest)
    else fail .expectedValue

/-- A member of an object read as a whole; members come out last first. -/
def collectMember (readValue : List Char → Except Error (Value × List Char))
    (members : List (String × Value)) (key : String) (text : List Char) :
    Except Error (List (String × Value) × List Char) := do
  let rest ← expectColon text
  let (value, rest) ← readValue rest
  .ok ((key, value) :: members, rest)

def readValue (room : Nat) (text : List Char) : Except Error (Value × List Char) :=
  match skipBlanks text with
  | [] => fail .endInValue
  | c :: rest =>
    if c = '[' then
      match room with
      | 0 => fail .nestingTooDeep
      | room + 1 => do
        let (items, rest) ← readItems (readValue room) rest.length true rest
        .ok (.array items, rest)
    else if c = '{' then
      match room with
      | 0 => fail .nestingTooDeep
      | room + 1 => do
        let (members, rest) ← foldMembers (collectMember (readValue room)) rest.length true rest []
        .ok (.object members.reverse, rest)
    else readScalar (c :: rest)

/-- How many containers a text may open one inside another. -/
def maxNesting : Nat :=
  127

end IcuMessage.Json
