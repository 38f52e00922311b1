/-
Numbers in messages: the id of an argument that is an index, and the offset of a
format with options. A source is taken apart into what stands before and after
the numeral (`Context.Text`). Where the value of the numeral can not be decoded
in its place, no shape of the message can be (`Slot.undecodable`), and where
there is no value of it the source is refused with it (`Message.refuses_of_hole`).
-/
import IcuMessage.Proofs.Json.Contexts
import IcuMessage.Proofs.Json.Numerals
import IcuMessage.Proofs.Message.ArrayForms
import IcuMessage.Proofs.Message.SpotValues

namespace IcuMessage

open Json

variable {α : Type}

/-! ## Values that are decoded as no message -/

/-- One of the elements of the message can not be decoded. -/
def Json.Value.Undecodable (v : Value) : Prop :=
  ∃ elements, v.part? "elements" 0 = some (.array elements) ∧
    ∃ element ∈ elements, ∀ levels e, Element.decode levels element ≠ .ok e

theorem Json.Value.MessageHas.undecodable {v node : Value} {kind : TaggedKind}
    (h : v.MessageHas kind node) (hn : ¬kind.Decoded node) : v.Undecodable := by
  obtain ⟨elements, helements, element, hmem, hnode⟩ := h
  refine ⟨elements, helements, element, hmem, fun levels e he => hn ?_⟩
  exact hnode.decoded ⟨e, levels, he⟩

theorem Json.Value.Undecodable.not_decoded {v : Value} (h : v.Undecodable)
    {decode : Decoder Element} {levels : Nat}
    (hd : ∀ v e, decode v = .ok e → Element.decode levels v = .ok e) (m : Message) :
    Decoder.record (Node.message (.list decode)) v ≠ .ok m := by
  intro hm
  obtain ⟨elements, helements, element, hmem, helement⟩ := h
  obtain ⟨e, he⟩ := Message.element_ok hm helements element hmem
  exact helement levels e (hd _ _ he)

theorem Message.not_read_of_undecodable {v : Value} {source : String} (ht : v.Text source.toList)
    (hv : v.Undecodable) : ∃ cause, Message.read source = .error cause := by
  have hdecode : ∀ v e, Element.streamed 124 v = .ok e → Element.decode 126 v = .ok e :=
    fun v e he => Decoder.tagged_of_streamedTagged he
  exact Message.not_read_of_not_decoded ht (hv.not_decoded hdecode)

/-! ## Places of numbers -/

theorem Element.id_ok {format : Decoder Format} {node : Value} {e : Element}
    (h : Decoder.tagged (Node.element format) node = .ok e)
    (ht : TaggedKind.element.Tells "argumentElement" node) {part : Value}
    (hp : node.part? "id" 1 = some part) : ∃ id, ArgumentId.decode part = .ok id := by
  obtain ⟨store, hs⟩ := tagged_part_ok (Node.names_element _) rfl 0 rfl rfl (by decide) h ht hp
  obtain ⟨id, hid, -⟩ := Decoder.ok_of_map hs
  exact ⟨id, hid⟩

theorem Format.offset_ok {branches : Decoder (List Branch)} {node : Value} {f : Format}
    (h : Decoder.tagged (Node.format branches) node = .ok f) {name : String} {index : Nat}
    (hv : (name, index) ∈ [("pluralFormat", 2), ("selectFormat", 1)])
    (ht : TaggedKind.format.Tells name node) {part : Value}
    (hp : node.part? "offset" index = some part) :
    ∃ offset, Decoder.int64.nullable part = .ok offset := by
  simp only [List.mem_cons, Prod.mk.injEq, List.not_mem_nil, or_false] at hv
  rcases hv with ⟨rfl, rfl⟩ | ⟨rfl, rfl⟩
  · obtain ⟨store, hs⟩ := tagged_part_ok (Node.names_format _) rfl 1 rfl rfl (by decide) h ht hp
    obtain ⟨offset, hoffset, -⟩ := Decoder.ok_of_map hs
    exact ⟨offset, hoffset⟩
  · obtain ⟨store, hs⟩ := tagged_part_ok (Node.names_format _) rfl 0 rfl rfl (by decide) h ht hp
    obtain ⟨offset, hoffset, -⟩ := Decoder.ok_of_map hs
    exact ⟨offset, hoffset⟩

/-- The JSON of messages, by the value that stands for one number of theirs: no shape of it is
decoded unless that value is. -/
structure Slot (encode : Value → Value) (decode : Decoder α) : Prop where
  form : ∀ x, ∃ items, encode x = Node.encodeMessage items
  zero : ∃ m, encode (.int 0) = Message.encode m
  float : ∀ bits a, decode (.float bits) ≠ .ok a
  undecodable : ∀ x v, x.depth = 0 → (∀ a, decode x ≠ .ok a) →
    (encode x).Reshaped true Node.absent v → v.Undecodable

/-- The JSON of the message with this value for the id of the argument at the spot. -/
def Spot.encodeId (spot : Spot) (format : Option Format) (x : Value) : Value :=
  spot.encode (Node.argumentOf x (encodeOption Format.encode format))

/-- The JSON of the message with this value for the offset of the format at the spot. -/
def Spot.encodeOffset (spot : Spot) (id : ArgumentId) (kind : BranchKind) (branches : List Branch)
    (x : Value) : Value :=
  spot.encode (Node.encodeArgument id (Node.branchingOf kind x (Branch.encodeAll branches)))

theorem Spot.encodeId_encode (spot : Spot) (format : Option Format) (id : ArgumentId) :
    spot.encodeId format id.encode =
      Message.encode (spot.put [Node.argumentElement id format]) := by
  rw [← Spot.encode_put]
  cases format <;> rfl

theorem Spot.encodeOffset_encode (spot : Spot) (id : ArgumentId) (kind : BranchKind)
    (branches : List Branch) (offset : Option Int64) :
    spot.encodeOffset id kind branches (IcuMessage.encodeOffset offset) =
      Message.encode (spot.put [.argument id (.branching kind offset branches)]) := by
  rw [← Spot.encode_put, Spot.encodeOffset, Node.branchingOf_encode]
  rfl

theorem Spot.slot_id (spot : Spot) (format : Option Format) :
    Slot (spot.encodeId format) ArgumentId.decode where
  form x := spot.encode_form _
  zero := ⟨_, spot.encodeId_encode format (.index 0)⟩
  float bits id h := by cases h
  undecodable x v hd hx h := by
    obtain ⟨w, hw, hnode⟩ := spot.messageHas h
    refine hnode.undecodable ?_
    rintro ⟨e, _ | levels, he⟩
    · cases he
    · obtain ⟨y, hy, hpart⟩ := hw.part? (by simp [tagName]) (show _[1]? = some ("id", _) from rfl)
        (by simp [Node.absent])
      obtain rfl := hy.eq_of_scalar hd
      obtain ⟨id, hid⟩ := Element.id_ok he (Node.tells_argument hw) hpart
      exact hx id hid

theorem Node.offset_of_reshaped {kind : BranchKind} {x v : Value} {branches : List Value}
    (hd : x.depth = 0) (hn : x ≠ .null)
    (h : (branchingOf kind x branches).Reshaped true absent v) :
    ∃ index, (branchingTag kind, index) ∈ [("pluralFormat", 2), ("selectFormat", 1)] ∧
      v.part? "offset" index = some x := by
  have hne : ∀ w, x.Reshaped true absent w → ("offset", w) ∉ absent := fun w hw => by
    rw [hw.eq_of_scalar hd]
    simp [absent, hn]
  cases kind with
  | plural | selectOrdinal =>
    obtain ⟨w, hw, hpart⟩ :=
      h.part? (by simp [tagName]) (show _[2]? = some ("offset", x) from rfl) hne
    exact ⟨2, by simp [branchingTag], hw.eq_of_scalar hd ▸ hpart⟩
  | select =>
    obtain ⟨w, hw, hpart⟩ :=
      h.part? (by simp [tagName]) (show _[1]? = some ("offset", x) from rfl) hne
    exact ⟨1, by simp [branchingTag], hw.eq_of_scalar hd ▸ hpart⟩

theorem Spot.slot_offset (spot : Spot) (id : ArgumentId) (kind : BranchKind)
    (branches : List Branch) :
    Slot (spot.encodeOffset id kind branches) Decoder.int64.nullable where
  form x := spot.encode_form _
  zero := ⟨_, spot.encodeOffset_encode id kind branches (some 0)⟩
  float := nofun
  undecodable x v hd hx h := by
    obtain ⟨w, hw, elements, helements, element, hmem, hnode⟩ := spot.messageHas h
    obtain ⟨format, hformat, hstep⟩ := Node.format_of_reshaped hw
    have hhas : v.MessageHas .format format :=
      ⟨elements, helements, element, hmem, hnode.tail hstep⟩
    refine hhas.undecodable ?_
    rintro ⟨f, levels, hf⟩
    -- A null offset is decoded, so this one is not null and left out in no shape.
    have hn : x ≠ .null := by
      rintro rfl
      exact hx none rfl
    obtain ⟨index, hi, hpart⟩ := Node.offset_of_reshaped hd hn hformat
    obtain ⟨offset, hoffset⟩ := Format.offset_ok hf hi (Node.tells_branching hformat) hpart
    exact hx offset hoffset

/-! ## Holes -/

/-- The context is that of a number in some shape of the messages. -/
def Json.Context.Holds (c : Context) (encode : Value → Value) : Prop :=
  ∀ x : Value, x.depth = 0 → (encode x).Reshaped true Node.absent (c.fill x)

/-- The hole is in the elements of the message. -/
def Json.Context.InElements : Context → Prop
  | .hole => False
  | .item before _ after => before = [] ∧ after = []
  | .member _ key _ _ => key = "elements"

theorem Json.Context.part?_member {before after : List (String × Value)} {key name : String}
    (hne : key ≠ name) (inner : Context) (index : Nat) (x y : Value) :
    ((Context.member before key inner after).fill x).part? name index =
      ((Context.member before key inner after).fill y).part? name index := by
  have hbeq : (name == key) = false := by simpa using hne.symm
  simp [Context.fill, Value.part?, List.lookup_append, List.lookup_cons, hbeq]

theorem Slot.inElements {encode : Value → Value} {decode : Decoder α} (h : Slot encode decode)
    {c : Context} (hc : c.Holds encode) : c.InElements := by
  obtain ⟨items, hform⟩ := h.form (.float 0)
  have hshape := hc (.float 0) rfl
  cases c with
  | hole =>
    rw [hform] at hshape
    obtain ⟨full, -, hw⟩ := hshape.node_ok
    nomatch hw
  | item before inner after =>
    rw [hform] at hshape
    obtain ⟨full, hf, hw⟩ := hshape.node_ok
    obtain _ | ⟨-, ⟨⟩⟩ := hf
    generalize hv : (Context.item before inner after).fill (.float 0) = v at hw
    cases hw with
    | object => nomatch hv
    | @items given omitted hgiven _ =>
      have hlength := congrArg List.length (Value.array.inj hv)
      have hfull := congrArg List.length hgiven
      simp at hlength hfull
      exact ⟨List.eq_nil_of_length_eq_zero (by omega), List.eq_nil_of_length_eq_zero (by omega)⟩
  | member before key inner after =>
    -- Elsewhere in the object, the hole has no influence on the elements.
    show key = "elements"
    refine Decidable.byContradiction fun hne => ?_
    obtain ⟨elements, helements, hbad⟩ := h.undecodable _ _ rfl (h.float 0) hshape
    obtain ⟨m, hm⟩ := h.zero
    have hzero := hc (.int 0) rfl
    rw [hm] at hzero
    have hdecode := Message.decode_reshaped (Nat.lt_succ_self m.nesting) hzero
    rw [Context.part?_member hne inner 0 _ (.int 0)] at helements
    obtain ⟨element, hmem, helement⟩ := hbad
    obtain ⟨e, he⟩ := Message.element_ok hdecode helements element hmem
    exact helement _ e he

theorem Message.refuses_of_hole {c : Context} {lead trail text : List Char}
    (h : c.Text lead trail) (hc : c.InElements) (hu : Unreadable text) (room : Nat) :
    Refuses (Message.reader (room + 3)) (lead ++ text ++ trail) := by
  -- Only the outermost container matters: what is inside it is one value of the elements.
  induction h with
  | hole => nomatch hc
  | between hb ha _ ih =>
    have h : Refuses (Message.reader (room + 3)) _ :=
      (ih hc).between (Reader.record_skipBlanks _ _) hb ha
    simpa only [List.append_assoc] using h
  | item hb hearlier h hlater _ =>
    obtain ⟨rfl, rfl⟩ := hc
    cases hearlier
    cases hlater
    have hinner := h.unreadable hu
    have hrefuses := Message.refuses_elements hinner room
    rw [Context.item_text]
    exact Record.refuses_items Message.elementsField rfl hb hinner.1
      (Message.elements_skipBlanks _) (.inr hrefuses) (.inl hrefuses)
  | @member _ _ _ _ _ _ _ _ earlier _ hb hearlier hk h hlater _ =>
    obtain rfl : _ = "elements" := hc
    have hrefuses := Message.refuses_elements (h.unreadable hu) room
    obtain ⟨values, hvalues, htexts⟩ := hearlier.exists_values
    have hmembers : List.Forall₂
        ((Node.message (.list Element.reader)).MemberText (room + 2)) earlier values := by
      refine Record.memberTexts (fun hfield => ?_) hvalues htexts
      obtain rfl := List.mem_singleton.mp (List.mem_of_find?_eq_some hfield)
      exact fun ht => Message.holds_or_refuses_elements ht room
    rw [Context.member_text]
    exact Record.refuses_members Message.elementsField rfl hb hmembers (hk _) hrefuses

end IcuMessage
