/-
The tags of the nodes of a message that has been read. The elements of the
message itself are told by the names of their variants alone. What stands below
them is decoded from values, and there the number of a variant's place is taken
for its name (`Tagged.ofTag_index`); no other tag is (`Message.tags_of_read`).
-/
import IcuMessage.Proofs.Json.RecordPieces
import IcuMessage.Proofs.Message.NodeSteps

namespace IcuMessage

open Json

/-! ## The elements of a message -/

namespace Message

/-- A message with its elements kept as the values they are read from. -/
def valuesRecord {F : Type → Type} [Functor F] (elements : F (List Value)) :
    Record F (Option (List Value)) (List Value) where
  title := "struct Message"
  fields := [⟨"elements", (fun vs _ => some vs) <$> elements⟩]
  start := none
  finish missing state := required missing "elements" state

def valuesReader : Reader (List Value) :=
  .record (valuesRecord (.list (.whole .ok)))

/-- The values from which the elements of a message are read. -/
def elementValues (source : String) : Except Error (List Value) :=
  valuesReader.readAll source.toList

end Message

/-- The value of an element that is read by itself. -/
def Element.StreamedFrom (room : Nat) (e : Element) (v : Value) : Prop :=
  Element.streamed room v = .ok e ∧ v.depth ≤ room + 1

theorem Element.carries_value (room : Nat) : Carries (Element.StreamedFrom room)
    (Element.reader (room + 1)) (Reader.whole .ok (room + 1)) := by
  intro text e rest hr
  obtain ⟨v, hv, he⟩ := readValue_of_tagged hr
  obtain ⟨piece, _, rfl, rfl, hne, hpiece⟩ := carries_readValue (Nat.le_refl (room + 1)) hv
  refine ⟨piece, v, rfl, ⟨he, depth_le_of_readValue hv⟩, hne, fun more hm => ?_⟩
  show (readValue (room + 1) (piece ++ more) >>= _) = _
  rw [hpiece more hm]
  rfl

theorem Message.carries_values (room : Nat) : Carries (List.Forall₂ (Element.StreamedFrom room))
    (Message.reader (room + 3)) (valuesReader (room + 3)) := by
  have hlist := (Element.carries_value room).list
  have hrecord : (Node.message (.list Element.reader)).Carries
      (Option.Rel (List.Forall₂ (Element.StreamedFrom room)))
      (List.Forall₂ (Element.StreamedFrom room)) (room + 2) (room + 2)
      (valuesRecord (.list (.whole .ok))) := by
    refine ⟨.cons ⟨rfl, hlist.stores fun es vs _ _ h _ => .some h⟩ .nil, .none, ?_⟩
    intro missing missing' s t m hst hm
    obtain rfl := required_ok hm
    cases hst with
    | some h => exact ⟨_, rfl, h⟩
  exact hrecord.record

theorem Element.StreamedFrom.tag_isNumber {room : Nat} {e : Element} {v : Value}
    (h : e.StreamedFrom room v) : ∀ tag ∈ v.tag?, tag.isNumber = false := by
  intro tag ht
  by_contra hn
  obtain ⟨he, hd⟩ := h
  rw [Element.streamed, Decoder.streamedTagged_of_number _ hd ht (by simpa using hn)] at he
  simp at he

theorem Element.StreamedFrom.decodedFrom {room : Nat} {e : Element} {v : Value}
    (h : e.StreamedFrom room v) : e.DecodedFrom v :=
  ⟨room + 2, Decoder.tagged_of_streamedTagged h.1⟩

/-- An element that is read by itself is told by a name. -/
theorem Element.StreamedFrom.named {room : Nat} {e : Element} {v : Value}
    (h : e.StreamedFrom room v) : ∃ name ∈ TaggedKind.element.tags, v.Named name := by
  have hdecoded : TaggedKind.element.Decoded v := ⟨e, h.decodedFrom⟩
  obtain ⟨name, hname, htells⟩ := hdecoded.tells
  refine ⟨name, hname, htells.resolve_right ?_⟩
  rintro ⟨index, -, htag⟩
  exact absurd (h.tag_isNumber _ htag) (by simp [Value.isNumber])

/-! ## Main result -/

theorem exists_of_forall₂ {α β : Type} {R : α → β → Prop} {as : List α} {bs : List β}
    (h : List.Forall₂ R as bs) : ∀ a ∈ as, ∃ b ∈ bs, R a b := by
  induction h with
  | nil => simp
  | cons hab h ih =>
    refine List.forall_mem_cons.mpr ⟨⟨_, List.mem_cons_self, hab⟩, fun a ha => ?_⟩
    obtain ⟨b, hb, hR⟩ := ih a ha
    exact ⟨b, List.mem_cons_of_mem _ hb, hR⟩

namespace Message

theorem nodes_of_read {source : String} {m : Message} (h : Message.read source = .ok m) :
    ∃ items, elementValues source = .ok items ∧ m.DecodedFrom items ∧ ∀ item ∈ items,
      (∃ name ∈ TaggedKind.element.tags, item.Named name) ∧
        ∀ kind node, item.HasNode kind node → ∃ name ∈ kind.tags, kind.Tells name node := by
  obtain ⟨items, hitems, hread⟩ := (carries_values 124).readAll h
  refine ⟨items, hread, decodedFrom_of_forall fun e he => ?_, fun item hi => ?_⟩
  · obtain ⟨item, hi, hstreamed⟩ := exists_of_forall₂ hitems e he
    exact ⟨item, hi, hstreamed.decodedFrom⟩
  · obtain ⟨e, -, hstreamed : e.StreamedFrom 124 item⟩ := exists_of_forall₂ hitems.flip item hi
    exact ⟨hstreamed.named, fun kind node hnode =>
      (hnode.decoded ⟨e, hstreamed.decodedFrom⟩).tells⟩

/-- **Every node of a message that is read has a tag of its kind.** Below the elements of the
message itself the number of a tag's place may stand for it, so all tags are names if and only if
none is an integer. Any other tag makes the source be refused. -/
theorem tags_of_read (source : String) :
    (∀ m, Message.read source = .ok m → ∃ items, elementValues source = .ok items ∧
      m.DecodedFrom items ∧ ∀ item ∈ items,
        (∃ name ∈ TaggedKind.element.tags, item.Named name) ∧
        (∀ kind node, item.HasNode kind node → ∃ name ∈ kind.tags, kind.Tells name node) ∧
        ((∀ kind node, item.HasNode kind node → ∃ name ∈ kind.tags, node.Named name) ↔
          ∀ kind node, item.HasNode kind node → ∀ n, node.tag? ≠ some (.int n))) ∧
    ∀ items, elementValues source = .ok items → ∀ item ∈ items, ∀ kind node,
      item.HasNode kind node → (∀ name ∈ kind.tags, ¬kind.Tells name node) →
      ∃ cause, Message.read source = .error cause := by
  refine ⟨fun m h => ?_, fun items hitems item hi kind node hnode hno => ?_⟩
  · obtain ⟨items, hread, hfrom, hnodes⟩ := nodes_of_read h
    refine ⟨items, hread, hfrom, fun item hi => ?_⟩
    obtain ⟨hnamed, htells⟩ := hnodes item hi
    refine ⟨hnamed, htells, fun h kind node hnode n hn => ?_, fun h kind node hnode => ?_⟩
    · obtain ⟨name, -, hname⟩ := h kind node hnode
      simp [Value.Named, hn] at hname
    · obtain ⟨name, hmem, hname | ⟨index, -, hindex⟩⟩ := htells kind node hnode
      · exact ⟨name, hmem, hname⟩
      · exact absurd hindex (h kind node hnode index)
  · cases hread : Message.read source with
    | error cause => exact ⟨cause, rfl⟩
    | ok m =>
      obtain ⟨items', hitems', -, hnodes⟩ := nodes_of_read hread
      obtain rfl : items = items' := Except.ok.inj (hitems.symm.trans hitems')
      obtain ⟨name, hmem, hname⟩ := (hnodes item hi).2 kind node hnode
      exact absurd hname (hno name hmem)

theorem elementValues_of_readValue {big : Nat} {source : String} {rest : List Char} {v : Value}
    (hv : readValue big source.toList = .ok (v, rest)) (hr : skipBlanks rest = []) :
    elementValues source =
      Decoder.streamedRecord (valuesRecord (.list (Value.within 125))) v := by
  have hwhole : (Reader.whole .ok).Follows 125 (Value.within 125) := by
    intro big text rest v hv
    show (readValue 125 text >>= _) = _
    rw [readValue_eq_within hv]
    cases v.within 125 <;> rfl
  exact readAll_of_readValue (Reader.Follows.record ⟨rfl, rfl, rfl,
    .cons ⟨rfl, hwhole.list.map _⟩ .nil⟩) hv hr

/-- A format whose tag is the number of the place of `numberFormat`. -/
def numberedFormat : Value :=
  .object [(tagName, .int 0)]

def numberedElement : Value :=
  .object [(tagName, .string "argumentElement"), ("id", .string "a"), ("format", numberedFormat)]

def numberedSource : String :=
  String.ofList (Node.encodeMessage [numberedElement]).write

theorem read_numberedSource :
    Message.read numberedSource = .ok [.argument (.name "a") (.simple .number none)] ∧
      elementValues numberedSource = .ok [numberedElement] ∧
      numberedElement.HasNode .format numberedFormat ∧
      ¬∃ name ∈ TaggedKind.format.tags, numberedFormat.Named name := by
  have hplain : (Node.encodeMessage [numberedElement]).Plain := by
    simp [Node.encodeMessage, numberedElement, numberedFormat, Value.Plain, Value.PlainItems,
      Value.PlainMembers]
  obtain ⟨rest, hv, hr⟩ := Value.read_ok (Value.read_write hplain (by decide))
  refine ⟨?_, ?_, .single (.format (.inl rfl) rfl (by simp [numberedFormat])), ?_⟩
  · rw [numberedSource, Message.read_of_readValue hv hr]
    rfl
  · rw [numberedSource, elementValues_of_readValue hv hr]
    rfl
  · rintro ⟨name, -, hname⟩
    simp [Value.Named, numberedFormat, Value.tag?] at hname

end Message

end IcuMessage
