/-
The nodes of a message tree as JSON: which fields each has, which may be
absent, and how elements and formats are told apart by their tags. What may be
absent may also be null, except `ordinal`, which says that a plural is a
selectordinal.

The records that occur both above and below tagged nodes are described for any
means of getting their fields' values. What lies below a tagged node is always
decoded from a JSON value.
-/
import IcuMessage.Message
import IcuMessage.Json.Tagged

namespace IcuMessage

open Json

namespace ArgumentId

/-- An index is an integer of 64 bits without sign. -/
def decode : Decoder ArgumentId
  | .int n =>
    if 0 ≤ n ∧ n < UInt64.size then .ok (.index (UInt64.ofNat n.toNat))
    else .error (.noVariantMatches "ArgumentId")
  | .string s => .ok (.name s)
  | _ => .error (.noVariantMatches "ArgumentId")

end ArgumentId

namespace Node

variable {F : Type → Type} [Functor F]

/-! ## Records -/

def message (elements : F (List Element)) : Record F (Option (List Element)) Message where
  title := "struct Message"
  fields := [⟨"elements", (fun es _ => some es) <$> elements⟩]
  start := none
  finish missing state := required missing "elements" state

def branch (selector : F String) (value : F Message) :
    Record F (Option String × Option Message) Branch where
  title := "struct FormatOption"
  fields :=
    [⟨"selector", (fun s state => (some s, state.2)) <$> selector⟩,
      ⟨"value", (fun m state => (state.1, some m)) <$> value⟩]
  start := (none, none)
  finish missing state := do
    let selector ← required missing "selector" state.1
    let value ← required missing "value" state.2
    .ok ⟨selector, value⟩

def text (value : F String) : Record F (Option String) Element where
  title := "struct TextElement"
  fields := [⟨"value", (fun s _ => some s) <$> value⟩]
  start := none
  finish missing state := (required missing "value" state).map .text

/-- An argument, formatted or not. -/
def argumentElement (id : ArgumentId) : Option Format → Element
  | none => .placeholder id
  | some format => .argument id format

def argument (id : F ArgumentId) (format : F (Option Format)) :
    Record F (Option ArgumentId × Option Format) Element where
  title := "struct ArgumentElement"
  fields :=
    [⟨"id", (fun i state => (some i, state.2)) <$> id⟩,
      ⟨"format", (fun f state => (state.1, f)) <$> format⟩]
  start := (none, none)
  finish missing state := do
    let id ← required missing "id" state.1
    .ok (argumentElement id state.2)

def simpleFormat (title : String) (kind : SimpleKind) (style : F (Option String)) :
    Record F (Option String) Format where
  title := title
  fields := [⟨"style", (fun s _ => s) <$> style⟩]
  start := none
  finish _ state := .ok (.simple kind state)

def selectFormat (offset : F (Option Int64)) (branches : F (List Branch)) :
    Record F (Option Int64 × Option (List Branch)) Format where
  title := "struct variant Format::SelectFormat"
  fields :=
    [⟨"offset", (fun n state => (n, state.2)) <$> offset⟩,
      ⟨"options", (fun bs state => (state.1, some bs)) <$> branches⟩]
  start := (none, none)
  finish missing state := do
    let branches ← required missing "options" state.2
    .ok (.branching .select state.1 branches)

def pluralKind (ordinal : Bool) : BranchKind :=
  if ordinal then .selectOrdinal else .plural

def pluralFormat (ordinal : F Bool) (offset : F (Option Int64)) (branches : F (List Branch)) :
    Record F (Bool × Option Int64 × Option (List Branch)) Format where
  title := "struct variant Format::PluralFormat"
  fields :=
    [⟨"ordinal", (fun b state => (b, state.2)) <$> ordinal⟩,
      ⟨"offset", (fun n state => (state.1, n, state.2.2)) <$> offset⟩,
      ⟨"options", (fun bs state => (state.1, state.2.1, some bs)) <$> branches⟩]
  start := (false, none, none)
  finish missing state := do
    let branches ← required missing "options" state.2.2
    .ok (.branching (pluralKind state.1) state.2.1 branches)

/-! ## Tagged nodes -/

def format (branches : Decoder (List Branch)) : Tagged Format where
  title := "Format"
  variants :=
    [("numberFormat", simple "struct variant Format::NumberFormat" .number),
      ("dateFormat", simple "struct variant Format::DateFormat" .date),
      ("timeFormat", simple "struct variant Format::TimeFormat" .time),
      ("pluralFormat", .record (pluralFormat .bool (.nullable .int64) branches)),
      ("selectFormat", .record (selectFormat (.nullable .int64) branches))]
where
  simple (title : String) (kind : SimpleKind) : Decoder Format :=
    .record (simpleFormat title kind (.nullable .string))

def element (format : Decoder Format) : Tagged Element where
  title := "Element"
  variants :=
    [("messageTextElement", .record (text .string)),
      ("argumentElement", .record (argument ArgumentId.decode (.nullable format)))]

/-- The format of an argument, given how the elements in its branches are decoded. -/
def formatOver (element : Decoder Element) : Tagged Format :=
  format (.list (.record (branch .string (.record (message (.list element))))))

end Node

/-- Elements are decoded as far down as `levels` elements lie inside one another. What was read
within some room never needs more levels than that. -/
def Element.decode : Nat → Decoder Element
  | 0 => fun _ => fail .nestingTooDeep
  | levels + 1 => .tagged (Node.element (.tagged (Node.formatOver (Element.decode levels))))

end IcuMessage
