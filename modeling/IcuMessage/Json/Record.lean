/-
Records: nodes with a fixed list of named fields. A record is written as an
object of its fields in any order, among members of other names, which are
ignored, or as the array of its fields in their order, where fields at the end
may be left out if they may be absent.

A description says what the fields are, and `F` by what means their values are
got: from a JSON value (`Decoder`) or from the text itself.
-/
import IcuMessage.Json.Decoder

namespace IcuMessage.Json

/-- A field of a record under construction of type `σ`: its value is stored in the record. -/
structure Field (F : Type → Type) (σ : Type) where
  name : String
  value : F (σ → σ)

structure Record (F : Type → Type) (σ α : Type) where
  title : String
  fields : List (Field F σ)
  start : σ
  /-- The finished record, or the given error for the first field that has to be there and is not. -/
  finish : (String → Error) → σ → Except Error α

/-- What a field that has to be there holds. -/
def required {α : Type} (missing : String → Error) (name : String) : Option α → Except Error α
  | some a => .ok a
  | none => .error (missing name)

def elementCount (n : Nat) : String :=
  if n = 1 then "1 element" else toString n ++ " elements"

namespace Record

variable {F : Type → Type} {σ α : Type}

def field? (r : Record F σ α) (name : String) : Option (Field F σ) :=
  r.fields.find? (·.name == name)

/-- The field of a name, if the record has one; `seen` are those whose keys came before. -/
def unseenField? (r : Record F σ α) (seen : List String) (name : String) :
    Except Error (Option (Field F σ)) :=
  match r.field? name with
  | none => .ok none
  | some field => if seen.contains name then .error (.duplicateField name) else .ok (some field)

/-- The error of an array that ends before a field that has to be there. -/
def missingItem (r : Record F σ α) (name : String) : Error :=
  .wrongLength (r.fields.findIdx (·.name == name))
    (r.title ++ " with " ++ elementCount r.fields.length)

/-- The error of an array of `length` items that goes on after the last field. -/
def surplusItems (r : Record F σ α) (length : Nat) : Error :=
  .wrongLength length (elementCount r.fields.length ++ " in sequence")

end Record

namespace Decoder

variable {σ α : Type}

/-! ## From an object -/

def member (r : Record Decoder σ α) (state : List String × σ) (m : String × Value) :
    Except Error (List String × σ) := do
  match ← r.unseenField? state.1 m.1 with
  | none => .ok state
  | some field =>
    let store ← field.value m.2
    .ok (m.1 :: state.1, store state.2)

def ofMembers (r : Record Decoder σ α) (members : List (String × Value)) : Except Error α := do
  let (_, state) ← members.foldlM (member r) ([], r.start)
  r.finish .missingField state

/-! ## From an array -/

/-- Stores items in fields as long as there are both. -/
def storeItems : List (Field Decoder σ) → List Value → σ → Except Error σ
  | field :: fields, item :: items, state => do
    let store ← field.value item
    storeItems fields items (store state)
  | [], _, state | _ :: _, [], state => .ok state

def ofItems (r : Record Decoder σ α) (items : List Value) : Except Error α := do
  let state ← storeItems r.fields items r.start
  let a ← r.finish r.missingItem state
  if r.fields.length < items.length then .error (r.surplusItems items.length) else .ok a

def record (r : Record Decoder σ α) : Decoder α
  | .object members => ofMembers r members
  | .array items => ofItems r items
  | value => .error (.wrongType value.found r.title)

end Decoder

end IcuMessage.Json
