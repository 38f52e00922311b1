/-
Sources that are longer or shorter than a message. A message is a container, so
its piece of the source ends with a bracket of its own and is taken whatever
comes after it (`Message.piece_of_read`). What follows decides only whether the
whole source is accepted (`Message.read_extended`).
-/
import IcuMessage.Proofs.BundleText

namespace IcuMessage

open Json

theorem Json.isBlank_iff {c : Char} : isBlank c = true ↔ c ∈ [' ', '\t', '\n', '\r'] := by
  simp [isBlank, or_assoc]

/-- The message is read from the front of the source, up to blanks, and so it is where other text
follows. -/
theorem Message.piece_of_read {source : String} {m : Message} (h : Message.read source = .ok m) :
    ∃ piece blanks, source.toList = piece ++ blanks ∧ Blank blanks ∧
      ∀ more, Message.reader maxNesting (piece ++ more) = .ok (m, more) := by
  obtain ⟨blanks, hread, hblank⟩ := readAll_ok_iff.mp h
  obtain ⟨piece, _, htext, rfl, -, hpiece⟩ :=
    (Message.record_carries (Nat.le_refl 124)).record_piece hread
  exact ⟨piece, blanks, htext, blank_of_skipBlanks hblank, hpiece⟩

theorem Message.read_extended_eq {source : String} {m : Message} (h : Message.read source = .ok m)
    (more : String) : Message.read (source ++ more) =
      if skipBlanks more.toList = [] then .ok m else fail .trailingCharacters := by
  obtain ⟨piece, blanks, htext, hblank, hpiece⟩ := Message.piece_of_read h
  have hread : Message.reader maxNesting (source ++ more).toList =
      .ok (m, blanks ++ more.toList) := by
    rw [String.toList_append, htext, List.append_assoc, hpiece]
  rw [Message.read, Reader.readAll, hread, ← skipBlanks_append_of_nil hblank.skip more.toList]
  rfl

/-- **No source with something behind a message, and none that a message is cut short of, is taken
for a message.** Behind an accepted source there may be blanks, and the message is the same;
anything else is trailing characters. So where the front of an accepted source is accepted, only
blanks are cut off. -/
theorem Message.read_extended {source : String} {m : Message} (h : Message.read source = .ok m) :
    (∀ more : String,
      ((∃ m', Message.read (source ++ more) = .ok m') ↔
        ∀ c ∈ more.toList, c ∈ [' ', '\t', '\n', '\r']) ∧
      ((∀ c ∈ more.toList, c ∈ [' ', '\t', '\n', '\r']) →
        Message.read (source ++ more) = .ok m) ∧
      ((¬∀ c ∈ more.toList, c ∈ [' ', '\t', '\n', '\r']) →
        Message.read (source ++ more) = .error (.malformed .trailingCharacters))) ∧
    ∀ front back : String, front ++ back = source → (∃ m', Message.read front = .ok m') →
      (∀ c ∈ back.toList, c ∈ [' ', '\t', '\n', '\r']) ∧ Message.read front = .ok m := by
  have hblank : ∀ text : List Char,
      skipBlanks text = [] ↔ ∀ c ∈ text, c ∈ [' ', '\t', '\n', '\r'] := by
    intro text
    simp only [← isBlank_iff]
    exact List.dropWhile_eq_nil_iff
  refine ⟨fun more => ?_, ?_⟩
  · rw [Message.read_extended_eq h, ← hblank]
    by_cases hmore : skipBlanks more.toList = []
    · simp [hmore]
    · simp [hmore, fail]
  · rintro front back rfl ⟨m', hfront⟩
    rw [Message.read_extended_eq hfront] at h
    rw [← hblank]
    by_cases hback : skipBlanks back.toList = []
    · rw [if_pos hback] at h
      obtain rfl := Except.ok.inj h
      exact ⟨hback, hfront⟩
    · rw [if_neg hback] at h
      cases h

/-- A bracket within a string ends nothing. -/
theorem Message.read_extended_bracket :
    Message.read "[[[\"messageTextElement\",\"]\\\"\"]]]" = .ok [.text "]\""] ∧
      Message.read "[[[\"messageTextElement\",\"]\\\"\"]]] \n" = .ok [.text "]\""] ∧
      Message.read "[[[\"messageTextElement\",\"]\\\"\"]]]]" =
        .error (.malformed .trailingCharacters) := by
  have h : Message.read "[[[\"messageTextElement\",\"]\\\"\"]]]" = .ok [.text "]\""] := by
    decide +kernel
  obtain ⟨hmore, -⟩ := Message.read_extended h
  exact ⟨h, (hmore " \n").2.1 (by simp), (hmore "]").2.2 (by simp)⟩

end IcuMessage
