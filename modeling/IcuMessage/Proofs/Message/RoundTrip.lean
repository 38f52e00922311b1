/-
Writing a message and reading it again. What is read from a text that stands
for a value is what the value is decoded to (`Message.read_of_readValue`); a
written message is such a text, and comes back unless its containers lie deeper
than a text may have them (`Message.read_write_eq`). Every message that has
been read, from whatever text, is nested little enough for that
(`Message.nesting_le_of_read`).
-/
import IcuMessage.Failure
import IcuMessage.Message.Read
import IcuMessage.Proofs.Json.Accepted
import IcuMessage.Proofs.Json.WrittenValues
import IcuMessage.Proofs.Message.Decoding

namespace IcuMessage

open Json

/-! ## Reading by way of values -/

def Element.streamed (room : Nat) : Decoder Element :=
  .streamedTagged (Node.element (.tagged (Node.formatOver (Element.decode (room + 1))))) room

def Message.streamed (room : Nat) : Decoder Message :=
  .streamedRecord (Node.message (.list (Element.streamed room)))

theorem Element.reader_follows (room : Nat) :
    Element.reader.Follows (room + 1) (Element.streamed room) := by
  intro big text rest v hv
  rw [Element.reader, Element.streamed]
  exact Reader.Follows.tagged _ hv

theorem Message.reader_follows (room : Nat) :
    Message.reader.Follows (room + 3) (Message.streamed room) :=
  Reader.Follows.record ⟨rfl, rfl, rfl, .cons
    ⟨rfl, (Reader.Follows.list (Element.reader_follows room)).map _⟩ .nil⟩

theorem Message.read_of_readValue {big : Nat} {source : String} {rest : List Char} {v : Value}
    (hv : readValue big source.toList = .ok (v, rest)) (hr : skipBlanks rest = []) :
    Message.read source = Message.streamed 124 v :=
  readAll_of_readValue (Message.reader_follows 124) hv hr

/-! ## Written messages -/

theorem Element.encode_tagFirst (e : Element) (format : Decoder Format) :
    ∃ name ms decode, e.encode = .object ((tagName, .string name) :: ms) ∧
      (∀ m ∈ ms, m.1 ≠ tagName) ∧ (Node.element format).named name = .ok decode := by
  cases e with
  | text value => exact ⟨_, _, _, rfl, by simp; decide, rfl⟩
  | placeholder id => exact ⟨_, _, _, rfl, by simp; decide, rfl⟩
  | argument id format => exact ⟨_, _, _, rfl, by simp; decide, rfl⟩

theorem Element.streamed_encode (room : Nat) (e : Element) : Element.streamed room e.encode =
    if e.encode.depth ≤ room + 1 then .ok e else fail .nestingTooDeep := by
  obtain ⟨name, ms, decode, heq, hms, hn⟩ :=
    e.encode_tagFirst (.tagged (Node.formatOver (Element.decode (room + 1))))
  have hdepth : e.encode.depth ≤ room + 1 ↔ Value.depthMembers ms ≤ room := by
    rw [heq]
    simp [Value.depth, Value.depthMembers]
  have hstreamed : Element.streamed room e.encode =
      if Value.depthMembers ms ≤ room then decode (.object ms) else fail .nestingTooDeep := by
    rw [heq, Element.streamed, Decoder.streamedTagged_tagFirst hms, hn, ok_bind]
  rw [hstreamed]
  by_cases hd : e.encode.depth ≤ room + 1
  · rw [if_pos hd, if_pos (hdepth.mp hd)]
    -- Decoding succeeds with levels enough, and the depth of the value says how many those are.
    have hnesting := Element.nesting_le_of_decode (Element.decode_encode e (Nat.lt_succ_self _))
    have hdecode : Element.decode (room + 2) e.encode = .ok e :=
      Element.decode_encode e (by omega)
    rw [heq, Element.decode, Decoder.tagged_tagFirst hms, hn, ok_bind] at hdecode
    exact hdecode
  · rw [if_neg hd, if_neg (mt hdepth.mpr hd)]

theorem Element.streamed_encodeAll (room : Nat) (elements : List Element) :
    Decoder.list (Element.streamed room) (.array (Element.encodeAll elements)) =
      if Value.depthItems (Element.encodeAll elements) ≤ room + 1 then .ok elements
      else fail .nestingTooDeep := by
  induction elements with
  | nil => rfl
  | cons e rest ih =>
    rw [Element.encodeAll, Decoder.list_cons, Element.streamed_encode, ih]
    simp only [Value.depthItems, Nat.max_le]
    by_cases he : e.encode.depth ≤ room + 1
    · by_cases hr : Value.depthItems (Element.encodeAll rest) ≤ room + 1 <;> simp [he, hr]
    · simp [he]

theorem Message.streamed_encode (room : Nat) (m : Message) :
    Message.streamed room (Message.encode m) =
      if (Message.encode m).depth ≤ room + 3 then .ok m else fail .nestingTooDeep := by
  have hrecord : Message.streamed room (Message.encode m) =
      Decoder.list (Element.streamed room) (.array (Element.encodeAll m)) :=
    Node.decode_message _ _
  rw [hrecord, Element.streamed_encodeAll, Message.depth_encode]
  simp only [Nat.add_le_add_iff_right]

theorem ArgumentId.plain_encode (id : ArgumentId) : id.encode.Plain := by
  cases id with
  | index position =>
    have hlt := position.toNat_lt
    have hmin : Int64.minValue.toInt ≤ 0 := by decide
    exact ⟨Int.le_trans hmin (Int.natCast_nonneg _), by exact_mod_cast hlt⟩
  | name value => trivial

theorem plain_encodeOffset (offset : Option Int64) : (encodeOffset offset).Plain := by
  cases offset with
  | none => trivial
  | some n =>
    have hlt : n.toInt < UInt64.size := Int.lt_trans n.toInt_lt (by decide)
    exact ⟨n.minValue_le_toInt, hlt⟩

mutual

theorem Element.plain_encode : ∀ e : Element, e.encode.Plain
  | .text _ => ⟨trivial, trivial, trivial⟩
  | .placeholder id => ⟨trivial, id.plain_encode, trivial, trivial⟩
  | .argument id format => ⟨trivial, id.plain_encode, Format.plain_encode format, trivial⟩

theorem Format.plain_encode : ∀ f : Format, f.encode.Plain
  | .simple _ none | .simple _ (some _) => ⟨trivial, trivial, trivial⟩
  | .branching kind offset branches => by
    have hb := Branch.plain_encodeAll branches
    have ho := plain_encodeOffset offset
    cases kind with
    | plural | selectOrdinal => exact ⟨trivial, trivial, ho, hb, trivial⟩
    | select => exact ⟨trivial, ho, hb, trivial⟩

theorem Branch.plain_encodeAll : ∀ branches : List Branch,
    Value.PlainItems (Branch.encodeAll branches)
  | [] => trivial
  | ⟨_, value⟩ :: rest =>
    ⟨⟨trivial, ⟨Element.plain_encodeAll value, trivial⟩, trivial⟩, Branch.plain_encodeAll rest⟩

theorem Element.plain_encodeAll : ∀ elements : List Element,
    Value.PlainItems (Element.encodeAll elements)
  | [] => trivial
  | e :: rest => ⟨Element.plain_encode e, Element.plain_encodeAll rest⟩

end

theorem Message.read_write_eq (m : Message) : Message.read m.write =
    if (Message.encode m).depth ≤ maxNesting then .ok m else fail .nestingTooDeep := by
  have hplain : (Message.encode m).Plain := ⟨Element.plain_encodeAll m, trivial⟩
  obtain ⟨mid, hv, hmid⟩ := spells_write hplain (Nat.le_refl _) [] .nil
  have hsource : m.write.toList = (Message.encode m).write := by
    rw [Message.write, String.toList_ofList]
  rw [List.append_nil, ← hsource] at hv
  rw [Message.read_of_readValue hv hmid, Message.streamed_encode]
  rfl

theorem Message.nesting_le_depth (m : Message) : 6 * m.nesting + 2 ≤ (Message.encode m).depth := by
  have hdecode : Message.decode (m.nesting + 1) (Message.encode m) = .ok m :=
    Message.decode_encode (Nat.lt_succ_self m.nesting)
  exact Message.nesting_le_of_record (fun _ _ => Element.nesting_le_of_decode) hdecode

theorem Message.depth_le_maxNesting_iff (m : Message) :
    (Message.encode m).depth ≤ maxNesting ↔ m.nesting ≤ 20 := by
  have := m.nesting_le_depth
  have := m.depth_encode_le
  rw [maxNesting]
  omega

/-- **A message comes back from its written form if its options lie at most twenty deep, and is
refused for its nesting otherwise.** -/
theorem Message.read_write_iff (m : Message) :
    (Message.read m.write = .ok m ↔ m.nesting ≤ 20) ∧
      (Message.read m.write = .error (.malformed .nestingTooDeep) ↔ 21 ≤ m.nesting) ∧
      Failure.malformedMessage (.malformed .nestingTooDeep) =
        "malformed message: recursion limit exceeded" := by
  have heq := m.read_write_eq
  by_cases hn : m.nesting ≤ 20
  · rw [if_pos (m.depth_le_maxNesting_iff.mpr hn)] at heq
    rw [heq]
    exact ⟨by simp [hn], by simp; omega, by decide⟩
  · rw [if_neg (mt m.depth_le_maxNesting_iff.mp hn)] at heq
    rw [heq]
    exact ⟨by simp [hn], by simp [fail]; omega, by decide⟩

/-! ## Messages that have been read -/

theorem Element.nesting_le_of_reader {room : Nat} {text rest : List Char} {e : Element}
    (h : Element.reader room text = .ok (e, rest)) : 6 * e.nesting ≤ room := by
  obtain ⟨name, decode, hd, w, hw, he⟩ := Reader.tagged_ok h
  have := Element.nesting_le_of_variant (fun _ _ => Format.nesting_le_of_formatOver
    fun _ _ => Element.nesting_le_of_decode) hd he
  omega

theorem Message.nesting_le_of_reader {room : Nat} {text rest : List Char} {m : Message}
    (h : Message.reader room text = .ok (m, rest)) : 6 * m.nesting + 2 ≤ room := by
  obtain ⟨n, rfl, hr⟩ := Reader.record_ok h
  obtain ⟨missing, state, hs, hf⟩ := hr
    (fun state => ∀ es ∈ state, 6 * Element.nestingAll es + 2 ≤ n + 1) (by simp [Node.message])
    fun field hfield text store rest hv state _ es hes => by
      simp only [Node.message, List.mem_singleton] at hfield
      subst hfield
      obtain ⟨elements, hl, rfl⟩ := Reader.ok_of_map hv
      obtain rfl : elements = es := Option.some.inj hes
      obtain ⟨k, rfl, hitems⟩ := Reader.list_ok hl
      have hn : Element.nestingAll elements ≤ k / 6 :=
        Element.nestingAll_le fun e he => by
          obtain ⟨_, _, hi⟩ := hitems e he
          have := Element.nesting_le_of_reader hi
          omega
      omega
  exact hs m (required_ok hf)

theorem Message.nesting_le_of_read {source : String} {m : Message}
    (h : Message.read source = .ok m) : m.nesting ≤ 20 := by
  obtain ⟨rest, hr, -⟩ := readAll_ok_iff.mp h
  have := Message.nesting_le_of_reader hr
  rw [maxNesting] at this
  omega

/-- **What has been read from any text comes back from its written form, which prints as the text
does.** -/
theorem Message.read_write_of_read {source : String} {m : Message}
    (h : Message.read source = .ok m) :
    m.nesting ≤ 20 ∧ Message.read m.write = .ok m ∧
      ∀ layout, Message.printSource layout m.write = Message.printSource layout source := by
  have hn := Message.nesting_le_of_read h
  have hw : Message.read m.write = .ok m := by
    rw [m.read_write_eq, if_pos (m.depth_le_maxNesting_iff.mpr hn)]
  exact ⟨hn, hw, fun layout => by rw [Message.printSource, Message.printSource, hw, h]⟩

/-- A message all of whose nodes are arrays, the tag of its format a number. -/
def Message.sourceOfArrays : String :=
  "[[[\"argumentElement\",\"n\",[4,null,[[\"a\",[[[\"messageTextElement\",\"hi\"]]]]]]]]]"

theorem Message.read_write_of_read_arrays :
    ∃ m, Message.read Message.sourceOfArrays = .ok m ∧
      m.nesting ≤ 20 ∧ Message.read m.write = .ok m ∧ ∀ layout,
        Message.printSource layout m.write = Message.printSource layout Message.sourceOfArrays := by
  have h : Message.read Message.sourceOfArrays =
      .ok [.argument (.name "n") (.branching .select none [⟨"a", [.text "hi"]⟩])] :=
    toOption_eq_some_iff.mp (by decide +kernel)
  exact ⟨_, h, Message.read_write_of_read h⟩

end IcuMessage
