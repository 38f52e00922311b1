/-
A message as the value of an option. The elements of a message by itself are
read one after another from the text, those of an option's value are decoded
from a value read before. Both give the same (`Message.streamed_eq_decode`), so
a text put where an option's value stands is accepted if and only if it is by
itself.
-/
import IcuMessage.Proofs.Message.RoundTrip

namespace IcuMessage

open Json

/-! ## Streamed and decoded -/

/-- The items of the list from which the elements of a message are read. -/
def Json.Value.ownElements : Value → List Value
  | .object members =>
    match members.lookup "elements" with
    | some (.array items) => items
    | _ => []
  | .array (.array items :: _) => items
  | _ => []

/-- No item's tag is a number. -/
def NamedTags (items : List Value) : Prop :=
  ∀ item ∈ items, ∀ tag ∈ item.tag?, tag.isNumber = false

theorem Element.streamed_eq_decode {room levels : Nat} {v : Value} (hd : v.depth ≤ room + 1)
    (hl : v.depth < levels) (ht : ∀ tag ∈ v.tag?, tag.isNumber = false) :
    Element.streamed room v = Element.decode levels v := by
  rw [Element.streamed, Decoder.streamedTagged_eq_tagged _ hd ht]
  have hagree := Element.agreeBelow_decode (n := v.depth + 1) (a := room + 2) (b := levels)
    (by omega) (by omega)
  exact hagree v (Nat.lt_succ_self _)

theorem Element.streamedList_eq_decode {room levels : Nat} {v : Value} (hd : v.depth ≤ room + 2)
    (hl : v.depth ≤ levels) (ht : ∀ items, v = .array items → NamedTags items) :
    Decoder.list (Element.streamed room) v = Decoder.list (Element.decode levels) v := by
  cases v with
  | array items =>
    refine mapM_congr fun item hi => ?_
    have hitem := Value.depth_le_depthItems hi
    rw [Value.depth] at hd hl
    exact Element.streamed_eq_decode (by omega) (by omega) (ht items rfl item hi)
  | _ => rfl

theorem Node.field?_elements {F : Type → Type} [Functor F] (elements : F (List Element)) :
    (message elements).field? "elements" = some ⟨"elements", (fun es _ => some es) <$> elements⟩ :=
  rfl

theorem Node.field?_message {F : Type → Type} [Functor F] (elements : F (List Element))
    {name : String} (h : name ≠ "elements") : (message elements).field? name = none := by
  simp [Record.field?, message, h.symm]

/-- A message's members are read alike if the first of its elements' lists is, since a second one
is refused. -/
theorem foldlM_member_message {f g : Decoder (List Element)} {ms : List (String × Value)}
    {seen : List String} (h : "elements" ∉ seen → ∀ v ∈ ms.lookup "elements", f v = g v)
    (state : Option (List Element)) :
    ms.foldlM (Decoder.member (Node.message f)) (seen, state) =
      ms.foldlM (Decoder.member (Node.message g)) (seen, state) := by
  induction ms generalizing seen state with
  | nil => rfl
  | cons m ms ih =>
    obtain ⟨key, v⟩ := m
    rw [List.foldlM_cons, List.foldlM_cons]
    by_cases hk : key = "elements"
    · subst hk
      by_cases hs : "elements" ∈ seen
      · have hc : seen.contains "elements" = true := by simpa using hs
        rw [Decoder.member_of_seen (Node.field?_elements f) hc,
          Decoder.member_of_seen (Node.field?_elements g) hc]
        rfl
      · have hc : seen.contains "elements" = false := by simpa using hs
        rw [Decoder.member_of_field (Node.field?_elements f) hc,
          Decoder.member_of_field (Node.field?_elements g) hc, h hs v (by simp)]
        cases g v with
        | error e => rfl
        | ok es => exact ih (fun hn => absurd List.mem_cons_self hn) _
    · rw [Decoder.member_of_no_field (Node.field?_message f hk),
        Decoder.member_of_no_field (Node.field?_message g hk)]
      refine ih (fun hn w hw => h hn w ?_) state
      rw [List.lookup_cons, beq_false_of_ne (Ne.symm hk)]
      exact hw

theorem Message.streamed_eq_decode {room levels : Nat} {v : Value} (hd : v.depth ≤ room + 3)
    (hl : v.depth ≤ levels) (ht : NamedTags v.ownElements) :
    (Message.streamed room v).toOption = (Message.decode levels v).toOption := by
  cases v with
  | object ms =>
    have helements : ∀ w ∈ ms.lookup "elements",
        Decoder.list (Element.streamed room) w = Decoder.list (Element.decode levels) w := by
      intro w hw
      obtain ⟨before, after, rfl, -⟩ := List.lookup_eq_some_iff.mp hw
      have hdepth : w.depth ≤ Value.depthMembers (before ++ ("elements", w) :: after) :=
        Value.depth_le_depthMembers (List.mem_append_right _ List.mem_cons_self)
      rw [Value.depth] at hd hl
      refine Element.streamedList_eq_decode (by omega) (by omega) ?_
      rintro items rfl
      rw [Value.ownElements, hw] at ht
      exact ht
    show (Decoder.ofMembers _ ms).toOption = (Decoder.ofMembers _ ms).toOption
    rw [Decoder.ofMembers, Decoder.ofMembers]
    show Except.toOption (ms.foldlM (Decoder.member (Node.message _)) ([], none) >>= _) =
      Except.toOption (ms.foldlM (Decoder.member (Node.message _)) ([], none) >>= _)
    rw [foldlM_member_message (fun _ => helements)]
    rfl
  | array items =>
    cases items with
    | nil => rfl
    | cons w rest =>
      have hw : Decoder.list (Element.streamed room) w =
          Decoder.list (Element.decode levels) w := by
        rw [Value.depth, Value.depthItems] at hd hl
        refine Element.streamedList_eq_decode (by omega) (by omega) ?_
        rintro items rfl
        exact ht
      have hstore : ∀ f : Decoder (List Element),
          Decoder.storeItems (Node.message f).fields (w :: rest) none = (f w).map some := by
        intro f
        show ((f w).map _ >>= _) = _
        cases f w <;> rfl
      show Except.toOption (Decoder.storeItems (Node.message _).fields (w :: rest) none >>= _) =
        Except.toOption (Decoder.storeItems (Node.message _).fields (w :: rest) none >>= _)
      rw [hstore, hstore, hw]
      -- More items than the one field are refused before the message is finished, or after.
      cases Decoder.list (Element.decode levels) w with
      | error e => rfl
      | ok elements => cases rest <;> rfl
  | _ => rfl

/-! ## The text of an option's value -/

/-- A text that stands for a value, and nothing but blanks after it. -/
def Json.Value.read (source : String) : Except Error Value :=
  Reader.readAll (.whole .ok) source.toList

namespace Message

/-- The text of a message that is one select argument with one option, the given text its value. -/
def wrapped (source : String) : String :=
  "\x7b\"elements\":" ++
    ("[" ++
      ("\x7b\"type\":\"argumentElement\",\"id\":\"x\",\"format\":" ++
        ("\x7b\"type\":\"selectFormat\",\"options\":" ++
          ("[" ++
            ("\x7b\"selector\":\"o\",\"value\":" ++ source ++ "\x7d") ++
          "]") ++
        "\x7d") ++
      "\x7d") ++
    "]") ++
  "\x7d"

/-- A message that is one select argument with one option, the given message its value. -/
def inOption (message : Message) : Message :=
  [.argument (.name "x") (.branching .select none [⟨"o", message⟩])]

end Message

def wrappedFormat (v : Value) : Value :=
  .object [(tagName, .string "selectFormat"), ("options", .array [Node.encodeBranch "o" v])]

def wrappedValue (v : Value) : Value :=
  Node.encodeMessage [Node.encodeArgument (.name "x") (wrappedFormat v)]

theorem depth_wrappedFormat (v : Value) : (wrappedFormat v).depth = v.depth + 3 := by
  simp [wrappedFormat, Node.encodeBranch, Value.depth, Value.depthMembers, Value.depthItems]

theorem decode_wrappedFormat (levels : Nat) (v : Value) :
    Decoder.tagged (Node.formatOver (Element.decode levels)) (wrappedFormat v) =
      (Message.decode levels v).map fun m => .branching .select none [⟨"o", m⟩] := by
  have hnamed : (Node.formatOver (Element.decode levels)).named "selectFormat" =
      .ok (.record (Node.selectFormat (.nullable .int64) (.list (Branch.decode levels)))) := rfl
  rw [wrappedFormat, Decoder.tagged_tagFirst (by simp; decide), hnamed, ok_bind]
  show Decoder.ofMembers _ _ = _
  rw [Decoder.ofMembers, List.foldlM_cons, Decoder.member_of_field rfl rfl, Decoder.list_cons,
    Branch.decode, Node.encodeBranch, Node.decode_branch]
  cases Message.decode levels v <;> rfl

theorem Message.streamed_wrappedValue {v : Value} {room : Nat} (hd : v.depth + 3 ≤ room) :
    Message.streamed room (wrappedValue v) =
      (Message.decode (room + 1) v).map Message.inOption := by
  have hargument : Element.streamed room (Node.encodeArgument (.name "x") (wrappedFormat v)) =
      (Message.decode (room + 1) v).map fun m =>
        .argument (.name "x") (.branching .select none [⟨"o", m⟩]) := by
    rw [Element.streamed, Decoder.streamedTagged_eq_tagged, Node.decode_encodeArgument]
    · show Except.map _ ((Decoder.tagged _ (wrappedFormat v)).map some) = _
      rw [decode_wrappedFormat]
      cases Message.decode (room + 1) v <;> rfl
    · simp [Node.encodeArgument, Value.depth, Value.depthMembers, ArgumentId.encode,
        depth_wrappedFormat]
      omega
    · intro tag htag
      obtain rfl : Value.string "argumentElement" = tag := Option.some.inj htag
      rfl
  have hrecord : Message.streamed room (wrappedValue v) = Decoder.list (Element.streamed room)
      (.array [Node.encodeArgument (.name "x") (wrappedFormat v)]) := Node.decode_message _ _
  rw [hrecord, Decoder.list_cons, hargument]
  cases Message.decode (room + 1) v <;> rfl

/-- A text between the first members of an object, strings all, and its end. -/
theorem spells_lastMember {room : Nat} (strings : List (String × String)) (key : String)
    {opening text : String} {v : Value}
    (ho : opening.toList = '{' :: (strings.flatMap (fun m =>
      memberText m.1 (StringLiteral.write m.2) ++ [',']) ++ memberText key []))
    (h : Spells room text.toList v) : Spells (room + 1) (opening ++ text ++ "\x7d").toList
      (.object (strings.map (fun m => (m.1, .string m.2)) ++ [(key, v)])) := by
  have hmembers : List.Forall₂ (SpellsMember room)
      (strings.map (fun m => memberText m.1 (StringLiteral.write m.2)) ++
        [memberText key text.toList])
      (strings.map (fun m => (m.1, Value.string m.2)) ++ [(key, v)]) := by
    clear ho
    induction strings with
    | nil => exact .cons ⟨_, isMember_memberText key _, h⟩ .nil
    | cons m strings ih => exact .cons ⟨_, isMember_memberText m.1 _, spells_string m.2⟩ ih
  have htext : (opening ++ text ++ "\x7d").toList = '{' :: commaSeparated
      (strings.map (fun m => memberText m.1 (StringLiteral.write m.2)) ++
        [memberText key text.toList]) ++ ['}'] := by
    rw [commaSeparated_concat, String.toList_append, String.toList_append, ho]
    simp [memberText, List.flatMap_map]
  rw [htext]
  exact spells_object .nil hmembers

theorem spells_singleton {room : Nat} {text : String} {v : Value} (h : Spells room text.toList v) :
    Spells (room + 1) ("[" ++ text ++ "]").toList (.array [v]) := by
  have htext : ("[" ++ text ++ "]").toList = '[' :: commaSeparated [text.toList] ++ [']'] := by
    simp [commaSeparated]
  rw [htext]
  exact spells_array .nil (.cons h .nil)

theorem spells_wrapped {source : String} {v : Value} (h : Spells 121 source.toList v) :
    Spells 127 (Message.wrapped source).toList (wrappedValue v) := by
  rw [Message.wrapped]
  refine spells_lastMember [] "elements" (by decide) (spells_singleton ?_)
  refine spells_lastMember [(tagName, "argumentElement"), ("id", "x")] "format" (by decide) ?_
  refine spells_lastMember [(tagName, "selectFormat")] "options" (by decide) (spells_singleton ?_)
  exact spells_lastMember [("selector", "o")] "value" (by decide) h

/-! ## Main results -/

theorem Json.Value.read_ok {source : String} {v : Value} (h : Value.read source = .ok v) :
    ∃ rest, readValue maxNesting source.toList = .ok (v, rest) ∧ skipBlanks rest = [] := by
  obtain ⟨rest, hread, hrest⟩ := readAll_ok_iff.mp h
  obtain ⟨⟨u, mid⟩, hr, heq⟩ := bind_ok_iff.mp hread
  obtain ⟨rfl, rfl⟩ : u = v ∧ mid = rest := by simpa using heq
  exact ⟨mid, hr, hrest⟩

/-- A text of a value with nothing around it but blanks is read as the value. -/
theorem Json.Value.read_text {source : String} {v : Value} (h : v.Text source.toList)
    (hd : v.depth ≤ maxNesting) : Value.read source = .ok v := by
  obtain ⟨mid, hv, hmid⟩ := h.spells hd [] .nil
  rw [List.append_nil] at hv
  have hblank : skipBlanks mid = [] := hmid
  simp [Value.read, Reader.readAll, Reader.whole, hv, hblank]

theorem Json.Value.read_write {v : Value} (h : v.Plain) (hd : v.depth ≤ maxNesting) :
    Value.read (String.ofList v.write) = .ok v :=
  Value.read_text (by rw [String.toList_ofList]; exact text_write h) hd

theorem Message.text_inOption (m : Message) : Message.text .compact m.inOption =
    "\x7bx, select,o \x7b" ++ Message.text .compact m ++ "\x7d\x7d" := by
  apply String.toList_inj.mp
  simp [Message.text, Message.inOption, Message.print, Element.printAll, Element.print,
    Branch.printAll, Syntax.branching, Syntax.branch, Syntax.branches, Syntax.offsetClause,
    ArgumentId.text, ArgumentType.name]

/-- **A message reads the same by itself and as the value of an option.** -/
theorem Message.read_wrapped {source : String} {v : Value} (hv : Value.read source = .ok v)
    (hd : v.depth ≤ 121) (ht : NamedTags v.ownElements) :
    ((∃ m, Message.read (Message.wrapped source) = .ok m) ↔ ∃ m, Message.read source = .ok m) ∧
      ∀ m, Message.read source = .ok m →
        Message.read (Message.wrapped source) = .ok m.inOption ∧
          ∃ text, Message.printSource .compact source = .ok text ∧
            Message.printSource .compact (Message.wrapped source) =
              .ok ("\x7bx, select,o \x7b" ++ text ++ "\x7d\x7d") := by
  obtain ⟨rest, hr, hb⟩ := Value.read_ok hv
  have hread : Message.read source = Message.streamed 124 v := Message.read_of_readValue hr hb
  have hspells := spells_wrapped ((spells_of_readValue hr hb).of_depth_le hd)
  obtain ⟨mid, hw, hmid⟩ := hspells [] .nil
  rw [List.append_nil] at hw
  have hwrapped : Message.read (Message.wrapped source) =
      (Message.decode 125 v).map Message.inOption := by
    rw [Message.read_of_readValue hw hmid, Message.streamed_wrappedValue (by omega)]
  have hsame : (Message.streamed 124 v).toOption = (Message.decode 125 v).toOption :=
    Message.streamed_eq_decode (by omega) (by omega) ht
  have hiff : ∀ m, Message.read source = .ok m ↔ Message.decode 125 v = .ok m := by
    intro m
    rw [hread, ← toOption_eq_some_iff, hsame, toOption_eq_some_iff]
  refine ⟨⟨?_, ?_⟩, ?_⟩
  · rintro ⟨m, hm⟩
    obtain ⟨m', hm', -⟩ := map_ok_iff.mp (hwrapped ▸ hm)
    exact ⟨m', (hiff m').mpr hm'⟩
  · rintro ⟨m, hm⟩
    exact ⟨m.inOption, by rw [hwrapped, (hiff m).mp hm, map_ok]⟩
  · intro m hm
    have hw : Message.read (Message.wrapped source) = .ok m.inOption := by
      rw [hwrapped, (hiff m).mp hm, map_ok]
    refine ⟨hw, Message.text .compact m, ?_, ?_⟩
    · rw [Message.printSource, hm, map_ok]
    · rw [Message.printSource, hw, map_ok, Message.text_inOption]

/-- The value of that text. -/
def valueOfArrays : Value :=
  .array [.array [.array [.string "argumentElement", .string "n", .array [.int 4, .null,
    .array [.array [.string "a", .array [.array [.array [.string "messageTextElement",
      .string "hi"]]]]]]]]]

theorem Message.read_wrapped_arrays :
    ∃ m, Message.read Message.sourceOfArrays = .ok m ∧
      Message.read (Message.wrapped Message.sourceOfArrays) = .ok m.inOption ∧
      ∃ text, Message.printSource .compact Message.sourceOfArrays = .ok text ∧
        Message.printSource .compact (Message.wrapped Message.sourceOfArrays) =
          .ok ("\x7bx, select,o \x7b" ++ text ++ "\x7d\x7d") := by
  have hsource : Message.sourceOfArrays = String.ofList valueOfArrays.write := by decide +kernel
  have hv : Value.read Message.sourceOfArrays = .ok valueOfArrays := by
    rw [hsource]
    exact Value.read_write (by simp [valueOfArrays, Value.Plain, Value.PlainItems]) (by decide)
  have hread : Message.read Message.sourceOfArrays =
      .ok [.argument (.name "n") (.branching .select none [⟨"a", [.text "hi"]⟩])] :=
    toOption_eq_some_iff.mp (by decide +kernel)
  refine ⟨_, hread, (Message.read_wrapped hv (by decide) fun item hitem tag htag => ?_).2 _ hread⟩
  obtain rfl := List.mem_singleton.mp hitem
  obtain rfl := Option.some.inj htag
  rfl

end IcuMessage
