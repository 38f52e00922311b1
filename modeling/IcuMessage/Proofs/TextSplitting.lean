/-
Where a text may be split. The scan looks one character ahead, behind a
backslash only, so two texts are escaped as if they were one (`escape_append`)
unless a `\#` is cut between them; then the backslash is escaped where it was
not before (`escape_of_cutsHash`). What is printed around an element does not
depend on it, so the same holds of two neighbouring text elements, wherever they
are in a message (`Message.text_split`).
-/
import IcuMessage.Proofs.EscapeUnits
import IcuMessage.Proofs.Message.Spots

namespace IcuMessage

namespace Escape

/-- The one ends with the backslash of a `\#` and the other begins with its `#`. -/
def CutsHash (a b : List Char) : Prop :=
  a.getLast? = some '\\' ∧ b.head? = some '#'

theorem CutsHash.cons {a b : List Char} (h : CutsHash a b) (c : Char) : CutsHash (c :: a) b := by
  refine ⟨?_, h.2⟩
  rw [List.getLast?_cons, h.1]
  rfl

theorem cutsHash_iff {a b : List Char} :
    CutsHash a b ↔ ∃ before after, a = before ++ ['\\'] ∧ b = '#' :: after := by
  constructor
  · rintro ⟨ha, hb⟩
    obtain ⟨before, rfl⟩ := List.getLast?_eq_some_iff.mp ha
    obtain ⟨after, rfl⟩ := List.head?_eq_some_iff.mp hb
    exact ⟨before, after, rfl, rfl⟩
  · rintro ⟨before, after, rfl, rfl⟩
    exact ⟨List.getLast?_concat, rfl⟩

theorem scan_append {a b : List Char} (h : ¬CutsHash a b) : scan (a ++ b) = scan a ++ scan b := by
  fun_induction scan a with
  | case1 => rfl
  | case2 rest ih =>
    have hrest : ¬CutsHash rest b := fun hcut => h ((hcut.cons '#').cons '\\')
    rw [List.cons_append, List.cons_append, scan, ih hrest, List.cons_append]
  | case3 c rest hc ih =>
    have hrest : ¬CutsHash rest b := fun hcut => h (hcut.cons c)
    have hnext : ¬(c = '\\' ∧ (rest ++ b).head? = some '#') := by
      rintro ⟨rfl, hhash⟩
      cases rest with
      | nil => exact h ⟨rfl, hhash⟩
      | cons d rest => exact hc rest rfl (by rw [Option.some.inj hhash])
    rw [List.cons_append, scan_cons hnext, ih hrest, List.cons_append]

theorem escape_append {a b : List Char} (h : ¬CutsHash a b) :
    escape (a ++ b) = escape a ++ escape b := by
  rw [escape, scan_append h, List.flatMap_append, escape, escape]

theorem escape_hash_cons (text : List Char) : escape ('#' :: text) = '#' :: escape text :=
  escape_append (a := ['#']) fun h => absurd h.1 (by decide)

theorem escape_append_cons {c : Char} (a : List Char) (hc : c ≠ '#') (b : List Char) :
    escape (a ++ c :: b) = escape a ++ escape (c :: b) :=
  escape_append fun h => hc (Option.some.inj h.2)

/-- Where a `\#` is cut, its backslash is escaped; in the whole text it is not. -/
theorem escape_of_cutsHash {a b : List Char} (h : CutsHash a b) : ∃ before after,
    escape a = before ++ ['\\', '\\'] ∧ escape b = '#' :: after ∧
      escape (a ++ b) = before ++ ['\\', '#'] ++ after := by
  obtain ⟨a, b, rfl, rfl⟩ := cutsHash_iff.mp h
  refine ⟨escape a, escape b, ?_, escape_hash_cons b, ?_⟩
  · exact escape_append_cons a (by decide) []
  · have hwhole : escape ('\\' :: '#' :: b) = ['\\', '#'] ++ escape b := rfl
    rw [List.append_assoc, List.singleton_append, escape_append_cons a (by decide), hwhole,
      List.append_assoc]

/-- The texts are escaped as one exactly where no `\#` is cut. -/
theorem escape_append_iff {a b : List Char} :
    escape (a ++ b) = escape a ++ escape b ↔ ¬CutsHash a b := by
  refine ⟨fun heq h => ?_, escape_append⟩
  obtain ⟨before, after, ha, hb, hab⟩ := escape_of_cutsHash h
  have hlength := congrArg List.length heq
  simp [ha, hb, hab] at hlength

end Escape

theorem Element.text_printAll_text (layout : Layout) (value : String) :
    (Element.printAll layout [.text value]).text = Escape.escape value.toList := by
  simp [Element.printAll, Element.print, Printed.ofText]

theorem Spot.text_split_iff (spot : Spot) (layout : Layout) (a b : String) :
    Message.text layout (spot.put [.text a, .text b]) =
        Message.text layout (spot.put [.text (a ++ b)]) ↔
      Escape.escape (a ++ b).toList = Escape.escape a.toList ++ Escape.escape b.toList := by
  obtain ⟨before, after, hput⟩ := spot.exists_text_put layout
  have hsplit : (Element.printAll (spot.layout layout) [.text a, .text b]).text =
      Escape.escape a.toList ++ Escape.escape b.toList := by
    rw [← List.singleton_append, Element.text_printAll_append, Element.text_printAll_text,
      Element.text_printAll_text]
  rw [Message.text, Message.text, Message.print, Message.print, String.ofList_inj, hput, hput,
    hsplit, Element.text_printAll_text, List.append_left_inj, List.append_right_inj, eq_comm]

/-- **A text may be split anywhere but within a `\#`.** Where the first part ends with the backslash
of one and the second begins with its `#`, the parts are written with one more backslash, just
before that `#`; otherwise they are written as the whole is. So an element of text, wherever it is
in a message, may be replaced by two for its parts in the same cases. -/
theorem Message.text_split :
    (∀ a b : String,
      Escape.escape (a ++ b).toList = Escape.escape a.toList ++ Escape.escape b.toList ↔
        ¬(a.toList.getLast? = some '\\' ∧ b.toList.head? = some '#')) ∧
    (∀ a b : String, a.toList.getLast? = some '\\' → b.toList.head? = some '#' →
      ∃ before after, Escape.escape a.toList = before ++ ['\\', '\\'] ∧
        Escape.escape b.toList = '#' :: after ∧
        Escape.escape (a ++ b).toList = before ++ ['\\', '#'] ++ after ∧
        (Escape.escape a.toList ++ Escape.escape b.toList).length =
          (Escape.escape (a ++ b).toList).length + 1) ∧
    (∀ (message : Message) (value : String),
      (∃ spot : Spot, spot.put [.text value] = message) ↔
        .text value ∈ Element.preorderAll message) ∧
    ∀ (spot : Spot) (layout : Layout) (a b : String),
      Message.text layout (spot.put [.text a, .text b]) =
          Message.text layout (spot.put [.text (a ++ b)]) ↔
        ¬(a.toList.getLast? = some '\\' ∧ b.toList.head? = some '#') := by
  have happend : ∀ a b : String,
      Escape.escape (a ++ b).toList = Escape.escape a.toList ++ Escape.escape b.toList ↔
        ¬(a.toList.getLast? = some '\\' ∧ b.toList.head? = some '#') := by
    intro a b
    rw [String.toList_append]
    exact Escape.escape_append_iff
  refine ⟨happend, fun a b ha hb => ?_, fun _ _ => exists_spot_iff, fun spot layout a b => ?_⟩
  · obtain ⟨before, after, hwa, hwb, hab⟩ := Escape.escape_of_cutsHash ⟨ha, hb⟩
    refine ⟨before, after, hwa, hwb, by rw [String.toList_append, hab], ?_⟩
    rw [String.toList_append, hwa, hwb, hab]
    simp
    omega
  · exact (spot.text_split_iff layout a b).trans (happend a b)

end IcuMessage
