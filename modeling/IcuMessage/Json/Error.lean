/-
Why a text does not give what was asked of it. A text that is no JSON is
malformed in one of finitely many ways; a JSON value of the wrong shape is
described by what was found and what was expected.
-/
import IcuMessage.Json.Value

namespace IcuMessage.Json

inductive SyntaxError where
  | endInList
  | endInObject
  | endInString
  | endInValue
  | expectedColon
  | expectedListSeparator
  | expectedObjectSeparator
  | expectedWord
  | expectedValue
  | invalidEscape
  | invalidNumber
  | numberOutOfRange
  | controlCharacter
  | keyNotString
  | loneSurrogate
  | trailingComma
  | trailingCharacters
  | unfinishedSurrogatePair
  | nestingTooDeep
  deriving DecidableEq, Repr, Inhabited

def SyntaxError.message : SyntaxError → String
  | endInList => "EOF while parsing a list"
  | endInObject => "EOF while parsing an object"
  | endInString => "EOF while parsing a string"
  | endInValue => "EOF while parsing a value"
  | expectedColon => "expected `:`"
  | expectedListSeparator => "expected `,` or `]`"
  | expectedObjectSeparator => "expected `,` or `\x7d`"
  | expectedWord => "expected ident"
  | expectedValue => "expected value"
  | invalidEscape => "invalid escape"
  | invalidNumber => "invalid number"
  | numberOutOfRange => "number out of range"
  | controlCharacter => "control character (\\u0000-\\u001F) found while parsing a string"
  | keyNotString => "key must be a string"
  | loneSurrogate => "lone leading surrogate in hex escape"
  | trailingComma => "trailing comma"
  | trailingCharacters => "trailing characters"
  | unfinishedSurrogatePair => "unexpected end of hex escape"
  | nestingTooDeep => "recursion limit exceeded"

inductive Error where
  | malformed (cause : SyntaxError)
  | wrongType (found : Found) (expected : String)
  | wrongValue (found : Found) (expected : String)
  | wrongLength (length : Nat) (expected : String)
  | missingField (name : String)
  | duplicateField (name : String)
  | unknownVariant (name : String) (known : List String)
  | noVariantMatches (title : String)
  deriving DecidableEq, Repr

namespace Error

def inBackticks (name : String) : String :=
  "`" ++ name ++ "`"

/-- Two names are joined by "or", more are listed. -/
def alternatives : List String → String
  | [] => ""
  | [a] => inBackticks a
  | [a, b] => inBackticks a ++ " or " ++ inBackticks b
  | names => "one of " ++ ", ".intercalate (names.map inBackticks)

def message : Error → String
  | malformed cause => cause.message
  | wrongType found expected =>
    "invalid type: " ++ String.ofList found.text ++ ", expected " ++ expected
  | wrongValue found expected =>
    "invalid value: " ++ String.ofList found.text ++ ", expected " ++ expected
  | wrongLength length expected =>
    "invalid length " ++ toString length ++ ", expected " ++ expected
  | missingField name => "missing field " ++ inBackticks name
  | duplicateField name => "duplicate field " ++ inBackticks name
  | unknownVariant name known =>
    "unknown variant " ++ inBackticks name ++ ", expected " ++ alternatives known
  | noVariantMatches title => "data did not match any variant of untagged enum " ++ title

end Error

def fail {α : Type} (cause : SyntaxError) : Except Error α :=
  .error (.malformed cause)

end IcuMessage.Json
