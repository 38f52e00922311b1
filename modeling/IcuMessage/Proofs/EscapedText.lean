/-
Escaped text as the reader of message syntax meets it: unit by unit, up to a
brace with no backslash before it or to the end (`readText`).

`readText_escape`: whatever brace follows an escaped text, exactly the text
is read back. So a text is determined by where it stands
(`escape_append_inj`): no escaped text runs on into the syntax around it.
-/
import IcuMessage.Escape

namespace IcuMessage.Escape

/-- The text up to the first bare brace with its escapes taken off, and what is left. -/
def readText : List Char → List Char × List Char
  | [] => ([], [])
  | '\\' :: '#' :: rest => ('\\' :: '#' :: (readText rest).1, (readText rest).2)
  | '\\' :: c :: rest => (c :: (readText rest).1, (readText rest).2)
  | c :: rest =>
    if c = '{' ∨ c = '}' then ([], c :: rest) else (c :: (readText rest).1, (readText rest).2)

/-- The text ends here: nothing follows, or a bare brace. -/
def Ends (rest : List Char) : Prop :=
  ∀ c ∈ rest.head?, c = '{' ∨ c = '}'

theorem Ends.open (rest : List Char) : Ends ('{' :: rest) := by simp [Ends]

theorem readText_ends {rest : List Char} (h : Ends rest) : readText rest = ([], rest) := by
  cases rest with
  | nil => rfl
  | cons c rest =>
    have hc : c = '{' ∨ c = '}' := h c rfl
    rcases hc with rfl | rfl <;> simp [readText]

theorem readText_special {c : Char} (h : isSpecial c = true) (rest : List Char) :
    readText ('\\' :: c :: rest) = (c :: (readText rest).1, (readText rest).2) := by
  have hc : c ≠ '#' := by rintro rfl; simp [isSpecial] at h
  rw [readText]
  exact fun he => absurd he hc

theorem readText_plain {c : Char} (h : isSpecial c = false) (rest : List Char) :
    readText (c :: rest) = (c :: (readText rest).1, (readText rest).2) := by
  simp only [isSpecial, Bool.or_eq_false_iff, decide_eq_false_iff_not] at h
  obtain ⟨⟨ho, hc⟩, hb⟩ := h
  rw [readText, if_neg (by simp [ho, hc])]
  · exact fun _ he => absurd he hb
  · exact fun _ _ he => absurd he hb

theorem readText_escape (text : List Char) {rest : List Char} (h : Ends rest) :
    readText (escape text ++ rest) = (text, rest) := by
  unfold escape
  fun_induction scan text with
  | case1 => exact readText_ends h
  | case2 text ih => simp [Piece.written, readText, ih]
  | case3 c text _ ih =>
    by_cases hc : isSpecial c = true
    · simp [hc, Piece.written, readText_special hc, ih]
    · simp only [Bool.not_eq_true] at hc
      simp [hc, Piece.written, readText_plain hc, ih]

theorem escape_append_inj {v w r s : List Char} (hr : Ends r) (hs : Ends s)
    (h : escape v ++ r = escape w ++ s) : v = w ∧ r = s := by
  have hv := readText_escape v hr
  rw [h, readText_escape w hs] at hv
  simp only [Prod.mk.injEq] at hv
  exact ⟨hv.1.symm, hv.2.symm⟩

end IcuMessage.Escape
