/-
Messages with some of their nodes written as arrays. Objects and arrays may be
mixed from node to node, and the same message is read. An array that goes on
after its node's last field makes the message be refused, wherever it is: what
is decoded has no surplus in any of its parts (`Node.overfull_branch` and the
like), so it is in none (`Element.not_decoded`). A surplus that can not even be
read does not matter either, since no part of such a message is passed over
(`Message.text_or_refuses`).
-/
import IcuMessage.Proofs.Json.Surplus
import IcuMessage.Proofs.Json.Unreadable
import IcuMessage.Proofs.Message.NodeShapes
import IcuMessage.Proofs.Message.NodeSteps

namespace IcuMessage

open Json

/-! ## Nodes -/

namespace Node

variable {foreign : Bool} {w x : Value}

theorem overfull_message {decode : Decoder Element} {items : List Value}
    (h : (encodeMessage items).Overfull foreign absent w) {m : Message}
    (hm : Decoder.record (message (.list decode)) w = .ok m) :
    ∃ items', Value.OverfullItems foreign absent items items' ∧
      ∀ item ∈ items', ∃ e, decode item = .ok e := by
  obtain ⟨y, hy, hw⟩ := Decoder.record_overfull [] nofun rfl h hm
  obtain ⟨items', rfl, hitems⟩ := hy.array_ok
  refine ⟨items', hitems, Message.element_ok hm ?_⟩
  exact hw.part? rfl (by simp) (by simp [absent])

theorem overfull_branch {value : Decoder Message} {selector : String}
    (h : (encodeBranch selector x).Overfull foreign absent w) {b : Branch}
    (hb : Decoder.record (branch .string value) w = .ok b) :
    ∃ y, x.Overfull foreign absent y ∧ ∃ m, value y = .ok m := by
  obtain ⟨y, hy, hw⟩ := Decoder.record_overfull [("selector", .string selector)]
    (by simp [Value.depth]) rfl h hb
  refine ⟨y, hy, Branch.message_ok hb ?_⟩
  exact hw.part? rfl (by simp) (by simp [absent])

theorem overfull_text {format : Decoder Format} {value : String}
    (h : (encodeText value).Overfull foreign absent w) (e : Element) :
    Decoder.tagged (element format) w ≠ .ok e := by
  intro he
  obtain ⟨y, hy, -⟩ :=
    Decoder.tagged_overfull [] (t := element format) rfl nofun rfl h he
  exact absurd rfl hy.not_scalar

theorem overfull_argument {format : Decoder Format} {id : ArgumentId}
    (h : (encodeArgument id x).Overfull foreign absent w) {e : Element}
    (he : Decoder.tagged (element format) w = .ok e) :
    ∃ y, x.Overfull foreign absent y ∧ ∃ f, format y = .ok f := by
  obtain ⟨y, hy, hw⟩ := Decoder.tagged_overfull [("id", id.encode)]
    (t := element format) rfl (by simp [id.depth_encode]) rfl h he
  have htag : w.tag? = some (.string "argumentElement") :=
    hw.tag? (by simp; decide) fun hm => tagName_not_absent _ hm rfl
  refine ⟨y, hy, Element.format_ok he (.inl htag) ?_ hy.ne_null⟩
  exact hw.part? rfl (by simp [tagName]) (by simp [absent, hy.ne_null])

theorem overfull_simple {branches : Decoder (List Branch)} {kind : SimpleKind}
    {style : Option String} (h : (encodeSimple kind style).Overfull foreign absent w) (f : Format) :
    Decoder.tagged (format branches) w ≠ .ok f := by
  intro hf
  obtain ⟨title, hnamed⟩ : ∃ title,
      (format branches).named kind.tag = .ok (format.simple title kind) := by
    cases kind <;> exact ⟨_, rfl⟩
  obtain ⟨y, hy, -⟩ := Decoder.tagged_overfull [] hnamed nofun rfl h hf
  exact absurd (depth_encodeOption (fun _ => rfl) style) hy.not_scalar

/-- Where a format is decoded, so are the items of its options. -/
theorem options_of_shape {decode : Decoder Branch} {name : String}
    {scalars : List (String × Value)} {items : List Value}
    (hv : (name, scalars.length + 1) ∈ [("pluralFormat", 3), ("selectFormat", 2)])
    (hs : ∀ m ∈ scalars, m.1 ≠ tagName ∧ m.1 ≠ "options")
    (hw : Shape foreign absent
      ((tagName, .string name) :: (scalars ++ [("options", .array items)])) w) {f : Format}
    (hf : Decoder.tagged (format (.list decode)) w = .ok f) :
    ∀ item ∈ items, ∃ b, decode item = .ok b := by
  have hne : ("options" : String) ≠ tagName := by decide
  have htag : w.tag? = some (.string name) := by
    refine hw.tag? (fun m hm => ?_) fun hm => tagName_not_absent _ hm rfl
    rcases List.mem_append.mp hm with hm | hm
    · exact (hs m hm).1
    · rwa [List.mem_singleton.mp hm]
  have hpart : w.part? "options" (scalars.length + 1) = some (.array items) := by
    refine hw.part? (by simp) (fun m hm hname => ?_) (by simp [absent])
    rcases List.mem_cons.mp hm with rfl | hm
    · exact absurd hname.symm hne
    · rcases List.mem_append.mp hm with hm | hm
      · exact absurd hname (hs m hm).2
      · rw [List.mem_singleton.mp hm]
  obtain ⟨bs, hbs⟩ := Format.options_ok hf hv (.inl htag) hpart
  exact Decoder.list_item_ok hbs

theorem overfull_select {decode : Decoder Branch} {offset : Option Int64} {items : List Value}
    (h : (encodeSelect offset items).Overfull foreign absent w) {f : Format}
    (hf : Decoder.tagged (format (.list decode)) w = .ok f) :
    ∃ items', Value.OverfullItems foreign absent items items' ∧
      ∀ item ∈ items', ∃ b, decode item = .ok b := by
  have hoffset : (encodeOffset offset).depth = 0 := depth_encodeOption (fun _ => rfl) offset
  obtain ⟨y, hy, hw⟩ := Decoder.tagged_overfull [("offset", encodeOffset offset)]
    (t := format (.list decode)) rfl (by simpa using hoffset) rfl h hf
  obtain ⟨items', rfl, hitems⟩ := hy.array_ok
  exact ⟨items', hitems, options_of_shape (by simp) (by simp [tagName]) hw hf⟩

theorem overfull_plural {decode : Decoder Branch} {ordinal : Bool} {offset : Option Int64}
    {items : List Value} (h : (encodePlural ordinal offset items).Overfull foreign absent w)
    {f : Format} (hf : Decoder.tagged (format (.list decode)) w = .ok f) :
    ∃ items', Value.OverfullItems foreign absent items items' ∧
      ∀ item ∈ items', ∃ b, decode item = .ok b := by
  have hoffset : (encodeOffset offset).depth = 0 := depth_encodeOption (fun _ => rfl) offset
  obtain ⟨y, hy, hw⟩ := Decoder.tagged_overfull
    [("ordinal", .bool ordinal), ("offset", encodeOffset offset)] (t := format (.list decode)) rfl
    (by simpa [Value.depth] using hoffset) rfl h hf
  obtain ⟨items', rfl, hitems⟩ := hy.array_ok
  exact ⟨items', hitems, options_of_shape (by simp) (by simp [tagName]) hw hf⟩

theorem overfull_branching {decode : Decoder Branch} {kind : BranchKind} {offset : Option Int64}
    {items : List Value} (h : (encodeBranching kind offset items).Overfull foreign absent w)
    {f : Format} (hf : Decoder.tagged (format (.list decode)) w = .ok f) :
    ∃ items', Value.OverfullItems foreign absent items items' ∧
      ∀ item ∈ items', ∃ b, decode item = .ok b := by
  cases kind with
  | plural | selectOrdinal => exact overfull_plural h hf
  | select => exact overfull_select h hf

end Node

/-! ## Trees -/

mutual

theorem Element.not_decoded : ∀ {levels : Nat} (e : Element) {v : Value},
    e.encode.Overfull foreign Node.absent v → ∀ a, Element.decode levels v ≠ .ok a
  | 0, _, _, _, _ => nofun
  | _ + 1, .text _, _, h, a => Node.overfull_text h a
  | _ + 1, .placeholder _, _, h, a => fun ha => by
    obtain ⟨y, hy, -⟩ := Node.overfull_argument h ha
    exact absurd rfl hy.not_scalar
  | levels + 1, .argument _ format, _, h, a => fun ha => by
    obtain ⟨y, hy, f, hf⟩ := Node.overfull_argument h ha
    exact Format.not_decoded format hy f hf

theorem Format.not_decoded : ∀ {levels : Nat} (f : Format) {v : Value},
    f.encode.Overfull foreign Node.absent v →
      ∀ a, Decoder.tagged (Node.formatOver (Element.decode levels)) v ≠ .ok a
  | _, .simple _ _, _, h, a => Node.overfull_simple h a
  | levels, .branching _ _ branches, _, h, a => fun ha => by
    obtain ⟨items, hitems, hdecoded⟩ := Node.overfull_branching h ha
    obtain ⟨item, hmem, hitem⟩ := Branch.exists_not_decoded branches hitems
    obtain ⟨b, hb⟩ := hdecoded item hmem
    exact hitem b hb

theorem Branch.exists_not_decoded : ∀ {levels : Nat} (branches : List Branch) {items : List Value},
    Value.OverfullItems foreign Node.absent (Branch.encodeAll branches) items →
      ∃ item ∈ items, ∀ b, Branch.decode levels item ≠ .ok b
  | _, [], _, h => nomatch h
  | levels, ⟨_, value⟩ :: rest, _, h => by
    cases h with
    | @here _ item _ _ h _ =>
      refine ⟨item, List.mem_cons_self, fun b hb => ?_⟩
      obtain ⟨y, hy, m, hm⟩ := Node.overfull_branch h hb
      obtain ⟨items, hitems, hdecoded⟩ := Node.overfull_message hy hm
      obtain ⟨element, hmem, helement⟩ := Element.exists_not_decoded value hitems
      obtain ⟨e, he⟩ := hdecoded element hmem
      exact helement e he
    | there _ hs =>
      obtain ⟨item, hmem, hitem⟩ := Branch.exists_not_decoded rest hs
      exact ⟨item, List.mem_cons_of_mem _ hmem, hitem⟩

theorem Element.exists_not_decoded : ∀ {levels : Nat} (elements : List Element)
    {items : List Value},
    Value.OverfullItems foreign Node.absent (Element.encodeAll elements) items →
      ∃ item ∈ items, ∀ e, Element.decode levels item ≠ .ok e
  | _, [], _, h => nomatch h
  | levels, e :: rest, _, h => by
    cases h with
    | @here _ item _ _ h _ => exact ⟨item, List.mem_cons_self, Element.not_decoded e h⟩
    | there _ hs =>
      obtain ⟨item, hmem, hitem⟩ := Element.exists_not_decoded rest hs
      exact ⟨item, List.mem_cons_of_mem _ hmem, hitem⟩

end

/-! ## Texts -/

theorem Element.readValue_of_reader {room : Nat} {text rest : List Char} {e : Element}
    (h : Element.reader (room + 1) text = .ok (e, rest)) :
    ∃ v, readValue (room + 1) text = .ok (v, rest) := by
  obtain ⟨v, hv, -⟩ := readValue_of_tagged h
  exact ⟨v, hv⟩

namespace Message

/-- The field of a message, as it is read. -/
def elementsField : Field Reader (Option (List Element)) :=
  ⟨"elements", (fun es _ => some es) <$> Reader.list Element.reader⟩

theorem elements_skipBlanks (room : Nat) (text : List Char) :
    elementsField.value room (skipBlanks text) = elementsField.value room text :=
  congrArg (Except.map _) (Reader.list_skipBlanks Element.reader room text)

theorem holds_or_refuses_elements {v : Value} {text : List Char} (h : v.Text text) (room : Nat) :
    (∃ a, Holds (elementsField.value (room + 2)) text a) ∨
      Refuses (elementsField.value (room + 2)) text :=
  ((Reader.Follows.list (Element.reader_follows room)).map _).holds_or_refuses h

theorem refuses_elements {text : List Char} (h : Unreadable text) (room : Nat) :
    Refuses (elementsField.value (room + 2)) text := by
  rintro rest hr ⟨store, last⟩ hx
  obtain ⟨es, hes, -⟩ := Reader.ok_of_map hx
  obtain ⟨v, hv⟩ := Reader.readValue_of_list (fun _ _ _ => Element.readValue_of_reader) hes
  exact h.2 _ rest hr _ hv

/-- Nothing of a message is passed over if it is an array or has no member but its elements: with
a blot in it, it is not read. -/
theorem text_or_refuses (room : Nat) : ∀ {v : Value} {text : List Char}, v.Blotted text →
    ((∃ x, v = .object [("elements", x)]) ∨ ∃ x xs, v = .array (x :: xs)) →
      v.Text text ∨ Refuses (Message.reader (room + 3)) text
  | _, _, .text h, _ => .inl h
  | _, _, .between hb ha h, hv =>
    (text_or_refuses room h hv).imp (.between hb ha)
      (.between (Reader.record_skipBlanks _ _) · hb ha)
  | _, _, .object hb h, hv => by
    obtain ⟨x, ⟨⟩⟩ | ⟨_, _, ⟨⟩⟩ := hv
    obtain _ | ⟨hk, h, ⟨⟩⟩ := h
    refine h.text_or_unreadable.imp (fun h => .object hb (.cons hk h .nil)) fun h => ?_
    exact Record.refuses_member elementsField rfl hb hk (refuses_elements h room)
  | _, _, @Value.Blotted.array _ _ texts hb h, hv => by
    obtain ⟨_, ⟨⟩⟩ | ⟨x, xs, ⟨⟩⟩ := hv
    obtain ⟨hs, hitems | ⟨t, ht, hf⟩⟩ := h.texts_or_unreadable
    · exact .inl (.array hb hitems)
    refine .inr ?_
    cases texts with
    | nil => simp at ht
    | cons text texts =>
      rcases hs text List.mem_cons_self with ⟨v, hv⟩ | hu
      · have hne : texts ≠ [] := by
          rintro rfl
          exact hv.not_unreadable (List.mem_singleton.mp ht ▸ hf)
        exact Record.refuses_items elementsField rfl hb hv.begins (elements_skipBlanks _)
          (holds_or_refuses_elements hv room) (.inr hne)
      · exact Record.refuses_items elementsField rfl hb hu.1 (elements_skipBlanks _)
          (.inr (refuses_elements hu room)) (.inl (refuses_elements hu room))

theorem not_read_of_not_decoded {v : Value} {source : String} (ht : v.Text source.toList)
    (h : ∀ m, Decoder.record (Node.message (.list (Element.streamed 124))) v ≠ .ok m) :
    ∃ cause, Message.read source = .error cause := by
  obtain ⟨rest, hr, hb⟩ := ht.spells (Nat.le_refl v.depth) [] .nil
  rw [List.append_nil] at hr
  rw [Message.read_of_readValue hr hb]
  cases hstreamed : Message.streamed 124 v with
  | error cause => exact ⟨cause, rfl⟩
  | ok m => exact absurd (Decoder.record_of_streamedRecord hstreamed) (h m)

theorem not_read_of_text {foreign : Bool} {m : Message} {v : Value} {source : String}
    (hv : (Message.encode m).Overfull foreign Node.absent v) (ht : v.Text source.toList) :
    ∃ cause, Message.read source = .error cause := by
  refine not_read_of_not_decoded ht fun m' hm => ?_
  obtain ⟨items, hitems, hdecoded⟩ := Node.overfull_message hv hm
  obtain ⟨item, hmem, hitem⟩ := Element.exists_not_decoded m hitems
  obtain ⟨e, he⟩ := hdecoded item hmem
  have hdecode : Element.decode 126 item = .ok e := Decoder.tagged_of_streamedTagged he
  exact hitem e hdecode

theorem form_of_overfull {m : Message} {v : Value}
    (hv : (Message.encode m).Overfull false Node.absent v) :
    (∃ x, v = .object [("elements", x)]) ∨ ∃ x xs, v = .array (x :: xs) := by
  cases hv with
  | surplus h x xs =>
    obtain _ | ⟨_, ⟨⟩⟩ := h
    exact .inr ⟨_, _, rfl⟩
  | node h hw =>
    obtain ⟨_, ⟨⟩⟩ | ⟨_, ⟨⟩⟩ := h
    rcases hw.of_singleton (by simp [Node.absent]) with rfl | rfl
    · exact .inl ⟨_, rfl⟩
    · exact .inr ⟨_, _, rfl⟩

theorem not_read_of_refuses {source : String}
    (h : Refuses (Message.reader maxNesting) source.toList) :
    ∃ cause, Message.read source = .error cause := by
  cases hread : Message.read source with
  | error cause => exact ⟨cause, rfl⟩
  | ok m =>
    obtain ⟨rest, hread, -⟩ := readAll_ok_iff.mp hread
    rw [← List.append_nil source.toList] at hread
    exact absurd hread (h [] .nil _)

theorem not_read_of_overfull {m : Message} {v : Value} {source : String}
    (hv : (Message.encode m).Overfull false Node.absent v) (ht : v.Blotted source.toList) :
    ∃ cause, Message.read source = .error cause := by
  rcases text_or_refuses 124 ht (form_of_overfull hv) with ht | hr
  · exact not_read_of_text hv ht
  · exact not_read_of_refuses hr

/-- **Every node of a message may be written as an object or as an array, and nothing is read past
the end of an array.** An item after the last field makes the source be refused, even if it is one
that can not be read. -/
theorem read_shapes {m : Message} {v : Value} {source : String} (hn : m.nesting ≤ 20) :
    ((Message.encode m).Reshaped false Node.absent v → v.Text source.toList →
      Message.read source = .ok m) ∧
    ((Message.encode m).Overfull false Node.absent v → v.Blotted source.toList →
      ∃ cause, Message.read source = .error cause) := by
  refine ⟨fun hv ht => ?_, not_read_of_overfull⟩
  have hd : v.depth ≤ maxNesting :=
    Nat.le_trans hv.depth_le (m.depth_le_maxNesting_iff.mpr hn)
  exact read_of_reshaped hv ht hd

/-- `Message.oneOption`, its plural and the message of its option as objects and all other nodes as
arrays. -/
def mixedForms : Value :=
  .array [.array [.array [.string "argumentElement", .string "n", .object [
    ("type", .string "pluralFormat"), ("options", .array [.array [.string "one",
      .object [("elements", .array [.array [.string "messageTextElement", .string "a"]])]]])]]]]

theorem reshaped_mixedForms :
    (Message.encode oneOption).Reshaped false Node.absent mixedForms := by
  have hformat : ∀ v, Shape false Node.absent [(tagName, .string "pluralFormat"),
      ("ordinal", .bool false), ("offset", .null), ("options", v)]
      (.object [("type", .string "pluralFormat"), ("options", v)]) := fun v =>
    .object ⟨[("ordinal", .bool false), ("offset", .null)], [], @List.perm_middle _ _ [_, _] [_],
      by simp [Node.absent], nofun⟩ (.inr (by simp; decide))
  have hargument : ∀ v, Shape false Node.absent [(tagName, .string "argumentElement"),
      ("id", .string "n"), ("format", v)] (.array [.string "argumentElement", .string "n", v]) :=
    fun v => .all_items
  have hbranch : ∀ v, Shape false Node.absent [("selector", .string "one"), ("value", v)]
      (.array [.string "one", v]) := fun v => .all_items
  have htext : Shape false Node.absent [(tagName, .string "messageTextElement"),
      ("value", .string "a")] (.array [.string "messageTextElement", .string "a"]) := .all_items
  refine .node (.cons (.array (.cons (.node ?_ (hargument _)) .nil)) .nil) .all_items
  refine .cons (.scalar rfl) (.cons (.scalar rfl) (.cons (.node ?_ (hformat _)) .nil))
  refine .cons (.scalar rfl) (.cons (.scalar rfl) (.cons (.scalar rfl) (.cons (.array
    (.cons (.node ?_ (hbranch _)) .nil)) .nil)))
  refine .cons (.scalar rfl) (.cons (.node (.cons (.array (.cons (.node ?_ htext) .nil)) .nil)
    .all_members) .nil)
  exact .cons (.scalar rfl) (.cons (.scalar rfl) .nil)

/-- The source of a text written as an array with a third item, which no double is large enough
for. -/
def overfullSource : String :=
  "[[[\"messageTextElement\",\"a\",1e999]]]"

def overfullText : Value :=
  .array [.array [.array [.string "messageTextElement", .string "a", .null]]]

theorem overfull_overfullText :
    (Message.encode [.text "a"]).Overfull false Node.absent overfullText :=
  .node (.here (.array (.here (.surplus (.cons (.scalar rfl) (.cons (.scalar rfl) .nil)) .null [])
    .nil)) .nil) .all_items

theorem blotted_overfullSource : overfullText.Blotted overfullSource.toList := by
  have hnumber : Unreadable "1e999".toList := by
    refine unreadable_scalar rfl rfl (by decide) fun x hx => ?_
    have hnone : (readScalar "1e999".toList).toOption = none := by decide +kernel
    rw [show readScalar "1e999".toList = .ok x from hx] at hnone
    nomatch hnone
  have htag : (Value.string "messageTextElement").Text "\"messageTextElement\"".toList :=
    text_write trivial
  have hvalue : (Value.string "a").Text "\"a\"".toList := text_write trivial
  exact .array .nil (.cons (.array .nil (.cons (.array .nil
    (.cons (.text htag) (.cons (.text hvalue) (.blot hnumber .nil)))) .nil)) .nil)

theorem read_shapes_mixed :
    Message.read (String.ofList mixedForms.write) = .ok oneOption ∧
      ∃ cause, Message.read overfullSource = .error cause := by
  have hplain : mixedForms.Plain := by
    simp [mixedForms, Value.Plain, Value.PlainItems, Value.PlainMembers]
  refine ⟨(read_shapes (by decide)).1 reshaped_mixedForms ?_,
    (read_shapes (by decide)).2 overfull_overfullText blotted_overfullSource⟩
  rw [String.toList_ofList]
  exact text_write hplain

end Message

end IcuMessage
