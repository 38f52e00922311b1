/-
The JSON of a message with any value for an element at a spot of it. In every
shape of it that value is there as one of the elements read as parts of the
message (`Spot.messageHas`), so whatever can not be decoded in it makes the message
be no message.
-/
import IcuMessage.Proofs.Message.NodeShapes
import IcuMessage.Proofs.Message.NodeSteps
import IcuMessage.Proofs.Message.Spots

namespace IcuMessage

open Json

/-! ## Nodes with any value for a number -/

namespace Node

/-- An argument with any value for its id. -/
def argumentOf (id format : Value) : Value :=
  .object [(tagName, .string "argumentElement"), ("id", id), ("format", format)]

def pluralOf (ordinal : Bool) (offset : Value) (branches : List Value) : Value :=
  .object [(tagName, .string "pluralFormat"), ("ordinal", .bool ordinal), ("offset", offset),
    ("options", .array branches)]

def selectOf (offset : Value) (branches : List Value) : Value :=
  .object [(tagName, .string "selectFormat"), ("offset", offset), ("options", .array branches)]

/-- A format with any value for its offset. -/
def branchingOf : BranchKind → Value → List Value → Value
  | .plural => pluralOf false
  | .selectOrdinal => pluralOf true
  | .select => selectOf

theorem argumentOf_encode (id : ArgumentId) (format : Value) :
    argumentOf id.encode format = encodeArgument id format :=
  rfl

theorem branchingOf_encode (kind : BranchKind) (offset : Option Int64) (branches : List Value) :
    branchingOf kind (encodeOffset offset) branches = encodeBranching kind offset branches := by
  cases kind <;> rfl

end Node

/-! ## Around a spot -/

/-- The JSON of the message with this one for the value of the option. -/
def Around.encode (around : Around) (value : Value) : Value :=
  Node.encodeMessage (Element.encodeAll around.before ++
    Node.encodeArgument around.id (Node.encodeBranching around.kind around.offset
      (Branch.encodeAll around.earlier ++ Node.encodeBranch around.selector value ::
        Branch.encodeAll around.later)) :: Element.encodeAll around.after)

def Place.encode : Place → Value → Value
  | option around, value => around.encode value
  | inside around place, value => around.encode (place.encode value)

/-- The JSON of the message with this one for the element at the spot. -/
def Spot.encode : Spot → Value → Value
  | own before after, element =>
    Node.encodeMessage (Element.encodeAll before ++ element :: Element.encodeAll after)
  | inside place before after, element =>
    place.encode
      (Node.encodeMessage (Element.encodeAll before ++ element :: Element.encodeAll after))

theorem Element.encodeAll_append (as bs : List Element) :
    Element.encodeAll (as ++ bs) = Element.encodeAll as ++ Element.encodeAll bs := by
  induction as with
  | nil => rfl
  | cons a as ih =>
    rw [List.cons_append, Element.encodeAll, ih, Element.encodeAll, List.cons_append]

theorem Branch.encodeAll_append (as bs : List Branch) :
    Branch.encodeAll (as ++ bs) = Branch.encodeAll as ++ Branch.encodeAll bs := by
  induction as with
  | nil => rfl
  | cons a as ih =>
    obtain ⟨selector, value⟩ := a
    rw [List.cons_append, Branch.encodeAll, ih, Branch.encodeAll, List.cons_append]

theorem Message.encode_own (before after : Message) (e : Element) :
    Node.encodeMessage (Element.encodeAll before ++ e.encode :: Element.encodeAll after) =
      Message.encode (before ++ [e] ++ after) := by
  rw [Message.encode, List.append_assoc, List.singleton_append, Element.encodeAll_append,
    Element.encodeAll]

theorem Around.encode_fill (around : Around) (value : Message) :
    around.encode (Message.encode value) = Message.encode (around.fill value) := by
  rw [Around.encode, Around.fill, Message.encode, Message.encode, Element.encodeAll_append,
    Element.encodeAll, Element.encode, Around.format, Format.encode, Branch.encodeAll_append,
    Branch.encodeAll]

theorem Place.encode_fill (place : Place) (value : Message) :
    place.encode (Message.encode value) = Message.encode (place.fill value) := by
  induction place with
  | option around => exact around.encode_fill value
  | inside around place ih => rw [Place.encode, ih, around.encode_fill, Place.fill]

theorem Spot.encode_put (spot : Spot) (e : Element) :
    spot.encode e.encode = Message.encode (spot.put [e]) := by
  cases spot with
  | own before after => exact Message.encode_own before after e
  | inside place before after => rw [Spot.encode, Message.encode_own, place.encode_fill, Spot.put]

theorem Spot.encode_form (spot : Spot) (x : Value) :
    ∃ items, spot.encode x = Node.encodeMessage items := by
  rcases spot with _ | ⟨_ | _, _, _⟩ <;> exact ⟨_, rfl⟩

/-! ## Parts in any shape -/

section

variable {foreign : Bool} {v x : Value}

namespace Node

theorem elements_of_reshaped {before after : List Value}
    (h : (encodeMessage (before ++ x :: after)).Reshaped foreign absent v) :
    ∃ items, v.part? "elements" 0 = some (.array items) ∧
      ∃ w ∈ items, x.Reshaped foreign absent w := by
  obtain ⟨w, hw, hpart⟩ := h.part? (by simp) (show _[0]? = some ("elements", _) from rfl)
    (by simp [absent])
  obtain ⟨items, rfl, hitems⟩ := hw.array_ok
  exact ⟨items, hpart, hitems.exists_mem⟩

theorem value_of_reshaped {selector : String}
    (h : (encodeBranch selector x).Reshaped foreign absent v) :
    ∃ w, x.Reshaped foreign absent w ∧ v.part? "value" 1 = some w :=
  h.part? (by simp) rfl (by simp [absent])

theorem tells_argument {id format : Value} (h : (argumentOf id format).Reshaped foreign absent v) :
    TaggedKind.element.Tells "argumentElement" v :=
  .inl (h.tag? (by simp [tagName]) fun hm => tagName_not_absent _ hm rfl)

/-- The name that tells a format with options. -/
def branchingTag : BranchKind → String
  | .plural | .selectOrdinal => "pluralFormat"
  | .select => "selectFormat"

theorem tells_branching {kind : BranchKind} {offset : Value} {branches : List Value}
    (h : (branchingOf kind offset branches).Reshaped foreign absent v) :
    TaggedKind.format.Tells (branchingTag kind) v := by
  cases kind <;>
    exact .inl (h.tag? (by simp [tagName]) fun hm => tagName_not_absent _ hm rfl)

theorem format_of_reshaped {id : Value} {kind : BranchKind} {offset : Value}
    {branches : List Value}
    (h : (argumentOf id (branchingOf kind offset branches)).Reshaped foreign absent v) :
    ∃ w, (branchingOf kind offset branches).Reshaped foreign absent w ∧
      NodeStep (.element, v) (.format, w) := by
  have hne : ∀ w, (branchingOf kind offset branches).Reshaped foreign absent w → w ≠ .null := by
    rintro _ hw rfl
    cases kind <;>
    · obtain ⟨_, -, hshape⟩ := hw.node_ok
      nomatch hshape
  obtain ⟨w, hw, hpart⟩ := h.part? (by simp [tagName]) (show _[2]? = some ("format", _) from rfl)
    fun w hw => by simp [absent, hne w hw]
  exact ⟨w, hw, .format (tells_argument h) hpart (hne w hw)⟩

theorem branch_of_reshaped {kind : BranchKind} {offset : Value} {before after : List Value}
    (h : (branchingOf kind offset (before ++ x :: after)).Reshaped foreign absent v) :
    ∃ index options, (branchingTag kind, index) ∈ [("pluralFormat", 3), ("selectFormat", 2)] ∧
      v.part? "options" index = some (.array options) ∧
        ∃ w ∈ options, x.Reshaped foreign absent w := by
  obtain ⟨index, hi, w, hw, hpart⟩ : ∃ index,
      (branchingTag kind, index) ∈ [("pluralFormat", 3), ("selectFormat", 2)] ∧ ∃ w,
        (Value.array (before ++ x :: after)).Reshaped foreign absent w ∧
          v.part? "options" index = some w := by
    cases kind with
    | plural | selectOrdinal =>
      exact ⟨3, by simp [branchingTag], h.part? (by simp [tagName]) rfl (by simp [absent])⟩
    | select =>
      exact ⟨2, by simp [branchingTag], h.part? (by simp [tagName]) rfl (by simp [absent])⟩
  obtain ⟨options, rfl, hoptions⟩ := hw.array_ok
  exact ⟨index, options, hi, hpart, hoptions.exists_mem⟩

end Node

/-- The node is one of the elements read as the message's own, or is below one of them. -/
def Json.Value.MessageHas (message : Value) (kind : TaggedKind) (node : Value) : Prop :=
  ∃ elements, message.part? "elements" 0 = some (.array elements) ∧
    ∃ element ∈ elements, element.HasNode kind node

/-- In any shape, the value of the option is there, and what it has the message has too. -/
theorem Around.messageHas (around : Around) (h : (around.encode x).Reshaped foreign Node.absent v) :
    ∃ w, x.Reshaped foreign Node.absent w ∧
      ∀ kind node, w.MessageHas kind node → v.MessageHas kind node := by
  obtain ⟨elements, helements, element, hmem, helement⟩ := Node.elements_of_reshaped h
  rw [← Node.argumentOf_encode, ← Node.branchingOf_encode] at helement
  obtain ⟨format, hformat, hstep⟩ := Node.format_of_reshaped helement
  obtain ⟨index, options, hi, hoptions, option, hoption, hbranch⟩ := Node.branch_of_reshaped hformat
  obtain ⟨w, hw, hvalue⟩ := Node.value_of_reshaped hbranch
  refine ⟨w, hw, ?_⟩
  rintro kind node ⟨inner, hinner, e, he, hnode⟩
  refine ⟨elements, helements, element, hmem, .head hstep (.head ?_ hnode)⟩
  exact .element hi (Node.tells_branching hformat) hoptions hoption hvalue hinner he

theorem Place.messageHas (place : Place) (h : (place.encode x).Reshaped foreign Node.absent v) :
    ∃ w, x.Reshaped foreign Node.absent w ∧
      ∀ kind node, w.MessageHas kind node → v.MessageHas kind node := by
  induction place generalizing v with
  | option around => exact around.messageHas h
  | inside around place ih =>
    obtain ⟨mid, hmid, houter⟩ := around.messageHas h
    obtain ⟨w, hw, hinner⟩ := ih hmid
    exact ⟨w, hw, fun kind node hnode => houter kind node (hinner kind node hnode)⟩

/-- In any shape of the message, the element at the spot is there in some shape. -/
theorem Spot.messageHas (spot : Spot) (h : (spot.encode x).Reshaped foreign Node.absent v) :
    ∃ w, x.Reshaped foreign Node.absent w ∧ v.MessageHas .element w := by
  have hown : ∀ {before after : List Value} {v : Value},
      (Node.encodeMessage (before ++ x :: after)).Reshaped foreign Node.absent v →
        ∃ w, x.Reshaped foreign Node.absent w ∧ v.MessageHas .element w := by
    intro before after v h
    obtain ⟨elements, helements, w, hmem, hw⟩ := Node.elements_of_reshaped h
    exact ⟨w, hw, elements, helements, w, hmem, .refl⟩
  cases spot with
  | own before after => exact hown h
  | inside place before after =>
    obtain ⟨mid, hmid, houter⟩ := place.messageHas h
    obtain ⟨w, hw, hnode⟩ := hown hmid
    exact ⟨w, hw, houter _ _ hnode⟩

end

end IcuMessage
