/-
Writing messages and their parts as JSON: every node as an object, its tag
first, then all its fields in their order, those that are absent as null.
-/
import IcuMessage.Message.Nodes
import IcuMessage.Json.Write

namespace IcuMessage

open Json

def ArgumentId.encode : ArgumentId → Value
  | .index position => .int position.toNat
  | .name value => .string value

def SimpleKind.tag : SimpleKind → String
  | .number => "numberFormat"
  | .date => "dateFormat"
  | .time => "timeFormat"

def encodeOption {α : Type} (encode : α → Value) : Option α → Value
  | none => .null
  | some a => encode a

def encodeOffset : Option Int64 → Value :=
  encodeOption fun n => .int n.toInt

namespace Node

def encodeMessage (elements : List Value) : Value :=
  .object [("elements", .array elements)]

def encodeBranch (selector : String) (value : Value) : Value :=
  .object [("selector", .string selector), ("value", value)]

def encodeText (value : String) : Value :=
  .object [(tagName, .string "messageTextElement"), ("value", .string value)]

def encodeArgument (id : ArgumentId) (format : Value) : Value :=
  .object [(tagName, .string "argumentElement"), ("id", id.encode), ("format", format)]

def encodeSimple (kind : SimpleKind) (style : Option String) : Value :=
  .object [(tagName, .string kind.tag), ("style", encodeOption .string style)]

def encodePlural (ordinal : Bool) (offset : Option Int64) (branches : List Value) : Value :=
  .object [(tagName, .string "pluralFormat"), ("ordinal", .bool ordinal),
    ("offset", encodeOffset offset), ("options", .array branches)]

def encodeSelect (offset : Option Int64) (branches : List Value) : Value :=
  .object [(tagName, .string "selectFormat"), ("offset", encodeOffset offset),
    ("options", .array branches)]

def encodeBranching : BranchKind → Option Int64 → List Value → Value
  | .plural => encodePlural false
  | .selectOrdinal => encodePlural true
  | .select => encodeSelect

end Node

mutual

def Element.encode : Element → Value
  | .text value => Node.encodeText value
  | .placeholder id => Node.encodeArgument id .null
  | .argument id format => Node.encodeArgument id format.encode

def Format.encode : Format → Value
  | .simple kind style => Node.encodeSimple kind style
  | .branching kind offset branches =>
    Node.encodeBranching kind offset (Branch.encodeAll branches)

def Branch.encodeAll : List Branch → List Value
  | [] => []
  | ⟨selector, value⟩ :: rest =>
    Node.encodeBranch selector (Node.encodeMessage (Element.encodeAll value)) ::
      Branch.encodeAll rest

def Element.encodeAll : List Element → List Value
  | [] => []
  | element :: rest => element.encode :: Element.encodeAll rest

end

def Message.encode (message : Message) : Value :=
  Node.encodeMessage (Element.encodeAll message)

def Branch.encode (branch : Branch) : Value :=
  Node.encodeBranch branch.selector (Message.encode branch.value)

/-! ## Texts -/

def ArgumentId.write (id : ArgumentId) : String :=
  String.ofList id.encode.write

def Element.write (element : Element) : String :=
  String.ofList element.encode.write

def Format.write (format : Format) : String :=
  String.ofList format.encode.write

def Branch.write (branch : Branch) : String :=
  String.ofList branch.encode.write

def Message.write (message : Message) : String :=
  String.ofList (Message.encode message).write

end IcuMessage
