/-
Tagged nodes: a member `type`, or the first item of an array, names one of
several variants, and the rest of the object or array is the variant's record.
The tag may stand anywhere in an object, so all members are looked at before
any of the rest is decoded.
-/
import IcuMessage.Json.Record

namespace IcuMessage.Json

/-- The name of the member that holds a tag. -/
def tagName : String :=
  "type"

/-- The variants of a tagged node, each decoding the node without its tag. -/
structure Tagged (α : Type) where
  title : String
  variants : List (String × Decoder α)

namespace Tagged

variable {α : Type}

def names (t : Tagged α) : List String :=
  t.variants.map (·.1)

def expected (t : Tagged α) : String :=
  "internally tagged enum " ++ t.title

def named (t : Tagged α) (name : String) : Except Error (Decoder α) :=
  match t.variants.lookup name with
  | some decode => .ok decode
  | none => .error (.unknownVariant name t.names)

def numbered (t : Tagged α) (index : Nat) : Except Error (Decoder α) :=
  match t.variants[index]? with
  | some (_, decode) => .ok decode
  | none =>
    .error (.wrongValue (.int index) ("variant index 0 <= i < " ++ toString t.variants.length))

/-- The variant of a tag that has been read as a value: by its name, or by its place among the
variants. -/
def ofTag (t : Tagged α) : Value → Except Error (Decoder α)
  | .string name => t.named name
  | .int (.ofNat index) => t.numbered index
  | tag => .error (.wrongType tag.found "variant identifier")

/-- The variant of an object, from the tag if there was one. -/
def untagged (variant : Option (Decoder α)) (rest : Value) : Except Error α :=
  match variant with
  | some decode => decode rest
  | none => .error (.missingField tagName)

end Tagged

namespace Decoder

variable {α : Type}

/-- Goes through the members of a tagged node, keeping the variant and all but the tag. -/
def tagMember (t : Tagged α) (state : Option (Decoder α) × List (String × Value))
    (m : String × Value) : Except Error (Option (Decoder α) × List (String × Value)) :=
  if m.1 = tagName then
    if state.1.isSome then .error (.duplicateField tagName)
    else do
      let variant ← t.ofTag m.2
      .ok (some variant, state.2)
  else .ok (state.1, m :: state.2)

def tagged (t : Tagged α) : Decoder α
  | .object members => do
    let (variant, rest) ← members.foldlM (tagMember t) (none, [])
    Tagged.untagged variant (.object rest.reverse)
  | .array (tag :: items) => do
    let variant ← t.ofTag tag
    variant (.array items)
  | .array [] => .error (.missingField tagName)
  | value => .error (.wrongType value.found t.expected)

end Decoder

end IcuMessage.Json
