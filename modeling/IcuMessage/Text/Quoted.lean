/-
A text in quotation marks, shown so that every character can be told: quotes
and backslashes are escaped, and a character that does not show, or that
would merge with the one before it, is given by its code point.
-/
import IcuMessage.Text.DefaultIgnorable
import IcuMessage.Text.GraphemeExtend
import IcuMessage.Text.Unprintable

namespace IcuMessage.Text

/-- A backslash, `u`, and the code point in lower-case hexadecimal between braces. -/
def codePoint (c : Char) : List Char :=
  ['\\', 'u', '{'] ++ Nat.toDigits 16 c.toNat ++ ['}']

/-- The halfwidth sound marks of katakana: they extend the character before them, yet are
letters of their own (general category Lm) with a form and a width. -/
def isHalfwidthSoundMark (c : Char) : Bool :=
  c = '\uFF9E' || c = '\uFF9F'

def isHidden (c : Char) : Bool :=
  isUnprintable c || isDefaultIgnorable c || isGraphemeExtend c && !isHalfwidthSoundMark c

def quotedChar (c : Char) : List Char :=
  if c = '\x00' then ['\\', '0']
  else if c = '\t' then ['\\', 't']
  else if c = '\r' then ['\\', 'r']
  else if c = '\n' then ['\\', 'n']
  else if c = '"' || c = '\\' then ['\\', c]
  else if isHidden c then codePoint c
  else [c]

def quoted (text : List Char) : List Char :=
  '"' :: text.flatMap quotedChar ++ ['"']

end IcuMessage.Text
