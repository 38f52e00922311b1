/-
A message's JSON may be rearranged, node by node: members in any order, members
of other names among them, and no member for what is absent. What is decoded
is the same (`Message.decode_rearranged`), and so is what is read from a text
of such a value, with blanks between its tokens (`Message.read_rearranged`).
-/
import IcuMessage.Proofs.Message.NodeShapes

namespace IcuMessage

open Json

theorem Message.decode_rearranged {levels : Nat} {m : Message} {v : Value}
    (hn : m.nesting < levels) (h : (Message.encode m).Rearranged Node.absent v) :
    Message.decode levels v = .ok m :=
  Message.decode_reshaped hn h.reshaped

theorem Message.namedTags_rearranged {m : Message} {v : Value}
    (h : (Message.encode m).Rearranged Node.absent v) : NamedTags v.ownElements :=
  Message.namedTags_reshaped h.reshaped

/-- **A message is read from any text of its JSON, the members of every node rearranged.** -/
theorem Message.read_rearranged {m : Message} {v : Value} {source : String}
    (hv : (Message.encode m).Rearranged Node.absent v) (ht : v.Text source.toList)
    (hd : v.depth ≤ 127) : Message.read source = .ok m := by
  obtain ⟨rest, hr, hb⟩ := ht.spells hd [] .nil
  rw [List.append_nil] at hr
  have hstreamed : (Message.streamed 124 v).toOption =
      (Message.decode (max v.depth (m.nesting + 1)) v).toOption :=
    Message.streamed_eq_decode hd (Nat.le_max_left _ _) (Message.namedTags_rearranged hv)
  rw [Message.read_of_readValue hr hb, ← toOption_eq_some_iff, hstreamed, toOption_eq_some_iff]
  exact Message.decode_rearranged (Nat.le_max_right _ _) hv

/-- A plural argument with one option, a text. -/
def Message.oneOption : Message :=
  [.argument (.name "n") (.branching .plural none [⟨"one", [.text "a"]⟩])]

/-- The list of its elements, every node last member first. What is absent has no member, and there
are members named like those of other nodes. -/
def reversedElements : Value :=
  .array [.object [("value", .bool true), ("value", .null), ("format", .object [
      ("options", .array [.object [("type", .null), ("value", .object [("elements", .array [
          .object [("id", .int 0), ("value", .string "a"),
            ("type", .string "messageTextElement")]])]),
        ("selector", .string "one")]]),
      ("type", .string "pluralFormat")]),
    ("id", .string "n"), ("type", .string "argumentElement")]]

theorem rearranged_reversedElements : (Message.encode Message.oneOption).Rearranged Node.absent
    (.object [("elements", reversedElements)]) := by
  have htext : Rearranges Node.absent
      [(tagName, .string "messageTextElement"), ("value", .string "a")]
      [("id", .int 0), ("value", .string "a"), ("type", .string "messageTextElement")] :=
    ⟨[], [("id", .int 0)], List.reverse_perm [_, _, _], by simp, by simp; decide⟩
  have hbranch : ∀ v, Rearranges Node.absent [("selector", .string "one"), ("value", v)]
      [("type", .null), ("value", v), ("selector", .string "one")] := fun v =>
    ⟨[], [("type", .null)], List.reverse_perm [_, _, _], by simp, by simp⟩
  have hformat : ∀ v, Rearranges Node.absent [(tagName, .string "pluralFormat"),
      ("ordinal", .bool false), ("offset", .null), ("options", v)]
      [("options", v), ("type", .string "pluralFormat")] := fun v =>
    ⟨[("ordinal", .bool false), ("offset", .null)], [], @List.perm_append_comm _ [_, _, _] [_],
      by simp [Node.absent], by simp⟩
  have hargument : ∀ v, Rearranges Node.absent [(tagName, .string "argumentElement"),
      ("id", .string "n"), ("format", v)] [("value", .bool true), ("value", .null), ("format", v),
      ("id", .string "n"), ("type", .string "argumentElement")] := fun v =>
    ⟨[], [("value", .null), ("value", .bool true)], List.reverse_perm [_, _, _, _, _], by simp,
      by simp; decide⟩
  have hsame : ∀ ms, Rearranges Node.absent ms ms := fun ms =>
    ⟨[], [], by simp, by simp, by simp⟩
  refine .object (.cons (.array (.cons (.object ?_ (hargument _)) .nil)) .nil) (hsame _)
  refine .cons (.scalar rfl) (.cons (.scalar rfl) (.cons (.object ?_ (hformat _)) .nil))
  refine .cons (.scalar rfl) (.cons (.scalar rfl) (.cons (.scalar rfl) (.cons (.array
    (.cons (.object ?_ (hbranch _)) .nil)) .nil)))
  refine .cons (.scalar rfl) (.cons (.object (.cons (.array (.cons (.object ?_ htext) .nil)) .nil)
    (hsame _)) .nil)
  exact .cons (.scalar rfl) (.cons (.scalar rfl) .nil)

/-- A text of a message, from the text of its elements, with blanks. -/
def sourceWithBlanks (elements : List Char) : String :=
  "\n\x7b \"elements\"\t: " ++ String.ofList elements ++ " \x7d\r\n"

theorem text_sourceWithBlanks {v : Value} {elements : List Char} (h : v.Text elements) :
    (Value.object [("elements", v)]).Text (sourceWithBlanks elements).toList := by
  have hsource : (sourceWithBlanks elements).toList = ['\n'] ++ ('{' :: [' '] ++
      commaSeparated [[] ++ '"' :: "elements\"".toList ++ ['\t'] ++
        ':' :: ([' '] ++ elements ++ [' '])] ++ ['}']) ++ ['\r', '\n'] := by
    have htoList : ∀ a b : String, (a ++ String.ofList elements ++ b).toList =
        a.toList ++ (elements ++ b.toList) := by simp
    refine (htoList _ _).trans ?_
    simp [commaSeparated]
  rw [hsource]
  exact .between (by decide) (by decide) (.object (by decide) (.cons
    ⟨_, _, _, rfl, by decide, by decide, rfl⟩ (.between (by decide) (by decide) h) .nil))

theorem Message.read_rearranged_reversed :
    Message.read (sourceWithBlanks reversedElements.write) = .ok Message.oneOption := by
  have hplain : reversedElements.Plain := by
    simp [reversedElements, Value.Plain, Value.PlainItems, Value.PlainMembers]
  exact Message.read_rearranged rearranged_reversedElements
    (text_sourceWithBlanks (text_write hplain)) (by decide)

end IcuMessage
