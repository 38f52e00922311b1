/-
String literals, from after their opening quote: reading them with every
escape resolved, passing over them with the escapes only checked for their
form, and writing them with as few escapes as possible.

The loops count down the length of the text, each round consuming some of it:
when the count is used up so is the text.
-/
import IcuMessage.Json.Error

namespace IcuMessage.Json.StringLiteral

/-! ## Escapes -/

/-- What a backslash and one more character stand for, `u` apart. -/
def shortEscape? : Char → Option Char
  | '"' => some '"'
  | '\\' => some '\\'
  | '/' => some '/'
  | 'b' => some '\x08'
  | 'f' => some '\x0c'
  | 'n' => some '\n'
  | 'r' => some '\r'
  | 't' => some '\t'
  | _ => none

def hexDigit? (c : Char) : Option Nat :=
  if c.isDigit then some (c.toNat - '0'.toNat)
  else if 'a' ≤ c ∧ c ≤ 'f' then some (c.toNat - 'a'.toNat + 10)
  else if 'A' ≤ c ∧ c ≤ 'F' then some (c.toNat - 'A'.toNat + 10)
  else none

/-- The length of a text in UTF-8. -/
def bytes : List Char → Nat
  | [] => 0
  | c :: text => c.utf8Size + bytes text

/-- What is wrong where four hexadecimal digits do not follow: the text ends within the next four
bytes, or some other character stands there. -/
def hexError (text : List Char) : SyntaxError :=
  if bytes text < 4 then .endInString else .invalidEscape

def readHex (text : List Char) : Except Error (Nat × List Char) :=
  match text with
  | a :: b :: c :: d :: rest =>
    match hexDigit? a, hexDigit? b, hexDigit? c, hexDigit? d with
    | some a, some b, some c, some d => .ok (((a * 16 + b) * 16 + c) * 16 + d, rest)
    | _, _, _, _ => fail (hexError text)
  | _ => fail (hexError text)

def isLeadingSurrogate (unit : Nat) : Bool :=
  0xD800 ≤ unit && unit ≤ 0xDBFF

def isTrailingSurrogate (unit : Nat) : Bool :=
  0xDC00 ≤ unit && unit ≤ 0xDFFF

def ofSurrogates (leading trailing : Nat) : Char :=
  Char.ofNat (0x10000 + (leading - 0xD800) * 0x400 + (trailing - 0xDC00))

/-- The second half of a surrogate pair, which has to follow as an escape of its own. -/
def readTrailing (leading : Nat) : List Char → Except Error (Char × List Char)
  | '\\' :: 'u' :: rest => do
    let (unit, rest) ← readHex rest
    if isTrailingSurrogate unit then .ok (ofSurrogates leading unit, rest) else fail .loneSurrogate
  | [] | ['\\'] => fail .endInString
  | _ => fail .unfinishedSurrogatePair

def readUnit (text : List Char) : Except Error (Char × List Char) := do
  let (unit, rest) ← readHex text
  if isTrailingSurrogate unit then fail .loneSurrogate
  else if isLeadingSurrogate unit then readTrailing unit rest
  else .ok (Char.ofNat unit, rest)

/-- Reads an escape from after its backslash. -/
def readEscape : List Char → Except Error (Char × List Char)
  | [] => fail .endInString
  | c :: rest =>
    if c = 'u' then readUnit rest
    else
      match shortEscape? c with
      | some d => .ok (d, rest)
      | none => fail .invalidEscape

/-- Passes over an escape. Any four hexadecimal digits will do, surrogates or not. -/
def skipEscape : List Char → Except Error (List Char)
  | [] => fail .endInString
  | c :: rest =>
    if c = 'u' then do
      let (_, rest) ← readHex rest
      .ok rest
    else if (shortEscape? c).isSome then .ok rest
    else fail .invalidEscape

/-! ## Literals -/

def isControl (c : Char) : Bool :=
  c.toNat < 0x20

def readLoop : Nat → List Char → Except Error (List Char × List Char)
  | 0, _ | _, [] => fail .endInString
  | count + 1, c :: rest =>
    if c = '"' then .ok ([], rest)
    else if c = '\\' then do
      let (d, rest) ← readEscape rest
      let (chars, rest) ← readLoop count rest
      .ok (d :: chars, rest)
    else if isControl c then fail .controlCharacter
    else do
      let (chars, rest) ← readLoop count rest
      .ok (c :: chars, rest)

def read (text : List Char) : Except Error (String × List Char) := do
  let (chars, rest) ← readLoop text.length text
  .ok (String.ofList chars, rest)

def skipLoop : Nat → List Char → Except Error (List Char)
  | 0, _ | _, [] => fail .endInString
  | count + 1, c :: rest =>
    if c = '"' then .ok rest
    else if c = '\\' then do
      let rest ← skipEscape rest
      skipLoop count rest
    else if isControl c then fail .controlCharacter
    else skipLoop count rest

def skip (text : List Char) : Except Error (List Char) :=
  skipLoop text.length text

/-! ## Writing -/

def hexDigits (n width : Nat) : List Char :=
  let digits := Nat.toDigits 16 n
  List.replicate (width - digits.length) '0' ++ digits

def writeChar (c : Char) : List Char :=
  if c = '"' then ['\\', '"']
  else if c = '\\' then ['\\', '\\']
  else if c = '\x08' then ['\\', 'b']
  else if c = '\x0c' then ['\\', 'f']
  else if c = '\n' then ['\\', 'n']
  else if c = '\r' then ['\\', 'r']
  else if c = '\t' then ['\\', 't']
  else if isControl c then ['\\', 'u'] ++ hexDigits c.toNat 4
  else [c]

def write (s : String) : List Char :=
  '"' :: s.toList.flatMap writeChar ++ ['"']

end IcuMessage.Json.StringLiteral
