/-
The steps by which lists and objects are read, whatever their items and
members are: blanks, the separators, the keys and the ends. A loop over items
or members counts down the length of the text, each round consuming some of
it: when the count is used up so is the text.
-/
import IcuMessage.Json.StringLiteral

namespace IcuMessage.Json

def isBlank (c : Char) : Bool :=
  c = ' ' || c = '\t' || c = '\n' || c = '\r'

def skipBlanks (text : List Char) : List Char :=
  text.dropWhile isBlank

/-- Passes over the rest of a word whose first letter has been read. -/
def expectWord : List Char → List Char → Except Error (List Char)
  | [], text => .ok text
  | _ :: _, [] => fail .endInValue
  | c :: word, d :: text => if c = d then expectWord word text else fail .expectedWord

/-! ## Lists -/

/-- What comes next in a list: an item, or the end of the list. -/
inductive NextItem where
  | item (rest : List Char)
  | close (rest : List Char)

/-- Before any item but the first there has to be a comma. -/
def nextItem (isFirst : Bool) (text : List Char) : Except Error NextItem :=
  match skipBlanks text with
  | [] => fail .endInList
  | c :: rest =>
    if c = ']' then .ok (.close rest)
    else if isFirst then .ok (.item (c :: rest))
    else if c = ',' then
      match skipBlanks rest with
      | [] => fail .endInValue
      | d :: rest => if d = ']' then fail .trailingComma else .ok (.item (d :: rest))
    else fail .expectedListSeparator

def readItems {α : Type} (readItem : List Char → Except Error (α × List Char)) :
    Nat → Bool → List Char → Except Error (List α × List Char)
  | 0, _, _ => fail .endInList
  | count + 1, isFirst, text => do
    match ← nextItem isFirst text with
    | .close rest => .ok ([], rest)
    | .item rest =>
      let (item, rest) ← readItem rest
      let (items, rest) ← readItems readItem count false rest
      .ok (item :: items, rest)

/-- The end of a list of which no more items are wanted. -/
def endList (text : List Char) : Except Error (List Char) :=
  match skipBlanks text with
  | [] => fail .endInList
  | c :: rest =>
    if c = ']' then .ok rest
    else if c = ',' && (skipBlanks rest).head? = some ']' then fail .trailingComma
    else fail .trailingCharacters

/-! ## Objects -/

/-- What comes next in an object: the key of a member, or the end of the object. -/
inductive NextMember where
  | member (key : String) (rest : List Char)
  | close (rest : List Char)

def readKey : List Char → Except Error NextMember
  | [] => fail .endInValue
  | c :: rest =>
    if c = '"' then do
      let (key, rest) ← StringLiteral.read rest
      .ok (.member key rest)
    else fail .keyNotString

/-- Before any member but the first there has to be a comma. -/
def nextMember (isFirst : Bool) (text : List Char) : Except Error NextMember :=
  match skipBlanks text with
  | [] => fail .endInObject
  | c :: rest =>
    if c = '}' then .ok (.close rest)
    else if isFirst then readKey (c :: rest)
    else if c = ',' then
      match skipBlanks rest with
      | [] => fail .endInValue
      | d :: rest => if d = '}' then fail .trailingComma else readKey (d :: rest)
    else fail .expectedObjectSeparator

def expectColon (text : List Char) : Except Error (List Char) :=
  match skipBlanks text with
  | [] => fail .endInObject
  | c :: rest => if c = ':' then .ok rest else fail .expectedColon

/-- Goes through the members of an object, `readMember` taking each from after its key. -/
def foldMembers {σ : Type} (readMember : σ → String → List Char → Except Error (σ × List Char)) :
    Nat → Bool → List Char → σ → Except Error (σ × List Char)
  | 0, _, _, _ => fail .endInObject
  | count + 1, isFirst, text, state => do
    match ← nextMember isFirst text with
    | .close rest => .ok (state, rest)
    | .member key rest =>
      let (state, rest) ← readMember state key rest
      foldMembers readMember count false rest state

end IcuMessage.Json
