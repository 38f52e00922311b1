/-
Reading typed values straight from a text. The first error met, from left to
right, is the one reported, so what is of the wrong type is refused before
what follows it is read. Members a record does not have are passed over, and
only a tagged node is read as a whole before it is decoded.
-/
import IcuMessage.Json.Read
import IcuMessage.Json.Skip
import IcuMessage.Json.Tagged

namespace IcuMessage.Json

/-- Reads from the front of a text, opening at most so many containers one inside another. -/
def Reader (α : Type) : Type :=
  Nat → List Char → Except Error (α × List Char)

namespace Reader

variable {σ α : Type}

instance : Functor Reader where
  map f read room text := (read room text).map fun (a, rest) => (f a, rest)

/-- The error where something else stands than expected. A scalar is read to its end first, and
an error in it goes before. -/
def wrongType {β : Type} (expected : String) (text : List Char) : Except Error β :=
  match skipBlanks text with
  | '[' :: _ => .error (.wrongType .array expected)
  | '{' :: _ => .error (.wrongType .object expected)
  | text => do
    let (value, _) ← readScalar text
    .error (.wrongType value.found expected)

/-- Opens a container, if there is room for one more. -/
def enter (inside : Reader α) : Reader α
  | 0, _ => fail .nestingTooDeep
  | room + 1, text => inside room text

/-! ## Leaves and lists -/

def string : Reader String := fun _ text =>
  match skipBlanks text with
  | '"' :: rest => StringLiteral.read rest
  | _ => wrongType "a string" text

def bool : Reader Bool := fun _ text =>
  match skipBlanks text with
  | 't' :: rest => (expectWord "rue".toList rest).map fun rest => (true, rest)
  | 'f' :: rest => (expectWord "alse".toList rest).map fun rest => (false, rest)
  | _ => wrongType "a boolean" text

def nullable (read : Reader α) : Reader (Option α) := fun room text =>
  match skipBlanks text with
  | 'n' :: rest => (expectWord "ull".toList rest).map fun rest => (none, rest)
  | _ => (read room text).map fun (a, rest) => (some a, rest)

def list (item : Reader α) : Reader (List α) := fun room text =>
  match skipBlanks text with
  | '[' :: rest => enter (fun room rest => readItems (item room) rest.length true rest) room rest
  | _ => wrongType "a sequence" text

/-- Reads a value as a whole, then decodes it. -/
def whole (decode : Decoder α) : Reader α := fun room text => do
  let (value, rest) ← readValue room text
  let a ← decode value
  .ok (a, rest)

/-! ## Records -/

def member (r : Record Reader σ α) (room : Nat) (state : List String × σ) (key : String)
    (text : List Char) : Except Error ((List String × σ) × List Char) := do
  match ← r.unseenField? state.1 key with
  | none =>
    let rest ← expectColon text
    let rest ← skipValue rest
    .ok (state, rest)
  | some field =>
    let rest ← expectColon text
    let (store, rest) ← field.value room rest
    .ok ((key :: state.1, store state.2), rest)

def members (r : Record Reader σ α) : Reader α := fun room text => do
  let ((_, state), rest) ← foldMembers (member r room) text.length true text ([], r.start)
  let a ← r.finish .missingField state
  .ok (a, rest)

/-- After the last field the array has to end. -/
def storeItems (room : Nat) : List (Field Reader σ) → Bool → List Char → σ →
    Except Error (σ × List Char)
  | [], _, text, state => do
    let rest ← endList text
    .ok (state, rest)
  | field :: fields, isFirst, text, state => do
    match ← nextItem isFirst text with
    | .close rest => .ok (state, rest)
    | .item rest =>
      let (store, rest) ← field.value room rest
      storeItems room fields false rest (store state)

def items (r : Record Reader σ α) : Reader α := fun room text => do
  let (state, rest) ← storeItems room r.fields true text r.start
  let a ← r.finish r.missingItem state
  .ok (a, rest)

def record (r : Record Reader σ α) : Reader α := fun room text =>
  match skipBlanks text with
  | '{' :: rest => enter (members r) room rest
  | '[' :: rest => enter (items r) room rest
  | _ => wrongType r.title text

/-! ## Tagged nodes -/

/-- A tag met in the text has to be a name. -/
def tag (t : Tagged α) (text : List Char) : Except Error (Decoder α × List Char) :=
  match skipBlanks text with
  | '"' :: rest => do
    let (name, rest) ← StringLiteral.read rest
    let variant ← t.named name
    .ok (variant, rest)
  | _ => wrongType "variant identifier" text

def tagMember (t : Tagged α) (room : Nat) (state : Option (Decoder α) × List (String × Value))
    (key : String) (text : List Char) :
    Except Error ((Option (Decoder α) × List (String × Value)) × List Char) :=
  if key = tagName then
    if state.1.isSome then .error (.duplicateField tagName)
    else do
      let rest ← expectColon text
      let (variant, rest) ← tag t rest
      .ok ((some variant, state.2), rest)
  else do
    let (collected, rest) ← collectMember (readValue room) state.2 key text
    .ok ((state.1, collected), rest)

def taggedMembers (t : Tagged α) : Reader α := fun room text => do
  let ((variant, collected), rest) ←
    foldMembers (tagMember t room) text.length true text (none, [])
  let a ← Tagged.untagged variant (.object collected.reverse)
  .ok (a, rest)

def taggedItems (t : Tagged α) : Reader α := fun room text => do
  match ← nextItem true text with
  | .close _ => .error (.missingField tagName)
  | .item rest =>
    let (variant, rest) ← tag t rest
    let (items, rest) ← readItems (readValue room) rest.length false rest
    let a ← variant (.array items)
    .ok (a, rest)

def tagged (t : Tagged α) : Reader α := fun room text =>
  match skipBlanks text with
  | '{' :: rest => enter (taggedMembers t) room rest
  | '[' :: rest => enter (taggedItems t) room rest
  | _ => wrongType t.expected text

/-! ## Whole texts -/

/-- Reads a text to its end: after the value there may only be blanks. -/
def readAll (read : Reader α) (text : List Char) : Except Error α := do
  let (a, rest) ← read maxNesting text
  if skipBlanks rest = [] then .ok a else fail .trailingCharacters

end Reader

end IcuMessage.Json
