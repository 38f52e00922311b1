/-
Passing over a value nobody asks for. Only its syntax is checked, and less of
it: numbers may be out of range, escapes may be lone surrogates, and nesting
has no limit.
-/
import IcuMessage.Json.Container
import IcuMessage.Json.Number

namespace IcuMessage.Json

def skipItems (skipItem : List Char → Except Error (List Char)) :
    Nat → Bool → List Char → Except Error (List Char)
  | 0, _, _ => fail .endInList
  | count + 1, isFirst, text =>
    match skipBlanks text with
    | [] => fail .endInList
    | c :: rest =>
      if c = ']' then .ok rest
      else if isFirst then do
        let rest ← skipItem (c :: rest)
        skipItems skipItem count false rest
      else if c = ',' then do
        let rest ← skipItem rest
        skipItems skipItem count false rest
      else fail .expectedListSeparator

def skipKey (text : List Char) : Except Error (List Char) :=
  match skipBlanks text with
  | [] => fail .endInObject
  | c :: rest => if c = '"' then StringLiteral.skip rest else fail .keyNotString

def skipMember (skipValue : List Char → Except Error (List Char)) (text : List Char) :
    Except Error (List Char) := do
  let rest ← skipKey text
  let rest ← expectColon rest
  skipValue rest

def skipMembers (skipValue : List Char → Except Error (List Char)) :
    Nat → Bool → List Char → Except Error (List Char)
  | 0, _, _ => fail .endInObject
  | count + 1, isFirst, text =>
    match skipBlanks text with
    | [] => fail .endInObject
    | c :: rest =>
      if c = '}' then .ok rest
      else if isFirst then do
        let rest ← skipMember skipValue (c :: rest)
        skipMembers skipValue count false rest
      else if c = ',' then do
        let rest ← skipMember skipValue rest
        skipMembers skipValue count false rest
      else fail .expectedObjectSeparator

def skipScalar : List Char → Except Error (List Char)
  | [] => fail .endInValue
  | c :: rest =>
    if c = 'n' then expectWord "ull".toList rest
    else if c = 't' then expectWord "rue".toList rest
    else if c = 'f' then expectWord "alse".toList rest
    else if c = '"' then StringLiteral.skip rest
    else if c = '-' || c.isDigit then do
      let (_, rest) ← Literal.scan .invalidNumber (c :: rest)
      .ok rest
    else fail .expectedValue

/-- Each container opened takes one of the count, which is no less than the length of the text. -/
def skipWithin : Nat → List Char → Except Error (List Char)
  | 0, _ => fail .endInValue
  | count + 1, text =>
    match skipBlanks text with
    | [] => fail .endInValue
    | c :: rest =>
      if c = '[' then skipItems (skipWithin count) rest.length true rest
      else if c = '{' then skipMembers (skipWithin count) rest.length true rest
      else skipScalar (c :: rest)

def skipValue (text : List Char) : Except Error (List Char) :=
  skipWithin text.length text

end IcuMessage.Json
