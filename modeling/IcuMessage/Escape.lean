/-
Escaping of literal text. The text is cut, left to right, into pieces: a
backslash with the `#` after it, a brace or any other backslash, or a plain
character. Only the pieces of the second kind change: a backslash is put
before them. The pieces of a text join to the text (`flatMap_source_scan`).
-/
namespace IcuMessage.Escape

/-- The characters with a meaning of their own in message syntax. -/
def isSpecial (c : Char) : Bool :=
  c = '{' || c = '}' || c = '\\'

inductive Piece where
  | plain (c : Char)
  | special (c : Char)
  | backslashHash
  deriving DecidableEq, Repr

namespace Piece

def source : Piece → List Char
  | plain c => [c]
  | special c => [c]
  | backslashHash => ['\\', '#']

def written : Piece → List Char
  | plain c => [c]
  | special c => ['\\', c]
  | backslashHash => ['\\', '#']

def isPlain : Piece → Bool
  | plain _ => true
  | special _ => false
  | backslashHash => false

end Piece

/-- A `#` takes the backslash before it along, so that `\#` counts as escaped already. -/
def scan : List Char → List Piece
  | [] => []
  | '\\' :: '#' :: rest => .backslashHash :: scan rest
  | c :: rest => (if isSpecial c then .special c else .plain c) :: scan rest

theorem flatMap_source_scan (text : List Char) : (scan text).flatMap Piece.source = text := by
  fun_induction scan text with
  | case1 => rfl
  | case2 rest ih => simp [Piece.source, ih]
  | case3 c rest _ ih =>
    rw [List.flatMap_cons, ih]
    split <;> rfl

def escape (text : List Char) : List Char :=
  (scan text).flatMap Piece.written

/-- Whether the text has no piece that escaping looks at, not even `\#`. -/
def isPlain (text : List Char) : Bool :=
  (scan text).all Piece.isPlain

end IcuMessage.Escape
