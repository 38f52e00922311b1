/-
The two layouts of a message. The pretty one has the text of the compact one
with newlines in it, three blanks after each but the last of an argument, so
that taking them out gives the compact text, if no string of the message has a
newline of its own (`Element.joinLines_print`). How many characters it adds
depends on the branches of the outermost arguments only, whatever the strings
are (`Element.length_print_pretty`).
-/
import Mathlib.Algebra.Ring.Nat
import IcuMessage.Proofs.Message.Strings

namespace IcuMessage

/-! ## Lines -/

/-- The text without its newlines, and without the three blanks after one where they are. -/
def joinLines : List Char → List Char
  | [] => []
  | '\n' :: ' ' :: ' ' :: ' ' :: rest => joinLines rest
  | c :: rest => if c = '\n' then joinLines rest else c :: joinLines rest

theorem joinLines_cons {c : Char} (h : c ≠ '\n') (rest : List Char) :
    joinLines (c :: rest) = c :: joinLines rest := by
  rw [joinLines, if_neg h]
  exact fun _ hc => absurd hc h

theorem joinLines_append {text : List Char} (h : ∀ c ∈ text, c ∉ ['\n']) (rest : List Char) :
    joinLines (text ++ rest) = text ++ joinLines rest := by
  induction text with
  | nil => rfl
  | cons c text ih =>
    obtain ⟨hc, htext⟩ := List.forall_mem_cons.mp h
    rw [List.cons_append, joinLines_cons (by simpa using hc), ih htext, List.cons_append]

theorem joinLines_flatMap {texts : List (List Char)} (h : ∀ text ∈ texts, ∀ c ∈ text, c ∉ ['\n'])
    (rest : List Char) :
    joinLines (texts.flatMap ("\n   ".toList ++ ·) ++ rest) = texts.flatten ++ joinLines rest := by
  induction texts with
  | nil => rfl
  | cons text texts ih =>
    obtain ⟨htext, htexts⟩ := List.forall_mem_cons.mp h
    rw [List.flatMap_cons, List.append_assoc, List.append_assoc, List.flatten_cons,
      List.append_assoc, ← ih htexts, ← joinLines_append htext]
    rfl

namespace Syntax

/-- The pretty layout of branches as the lines it consists of. -/
theorem branches_pretty_eq (texts : List (List Char)) : branches .pretty texts =
    (if texts = [] then "\n   ".toList else texts.flatMap ("\n   ".toList ++ ·)) ++ ['\n'] := by
  cases texts with
  | nil => rfl
  | cons text texts => rw [branches, append_intercalate, if_neg (List.cons_ne_nil _ _)]

theorem joinLines_branches {texts : List (List Char)} (h : ∀ text ∈ texts, ∀ c ∈ text, c ∉ ['\n'])
    (rest : List Char) : joinLines (branches .pretty texts ++ '}' :: rest) =
      branches .compact texts ++ '}' :: joinLines rest := by
  have hend : joinLines ('\n' :: '}' :: rest) = '}' :: joinLines rest := by simp [joinLines]
  rw [branches_pretty_eq, List.append_assoc]
  by_cases ht : texts = []
  · subst ht
    exact hend
  · rw [if_neg ht, joinLines_flatMap h]
    exact congrArg _ hend

theorem length_flatMap_line (texts : List (List Char)) :
    (texts.flatMap ("\n   ".toList ++ ·)).length = texts.flatten.length + 4 * texts.length := by
  induction texts with
  | nil => rfl
  | cons text texts ih =>
    rw [List.flatMap_cons, List.length_append, List.length_append, ih, List.flatten_cons,
      List.length_append, List.length_cons]
    have hindent : "\n   ".toList.length = 4 := rfl
    omega

theorem length_branches_pretty (texts : List (List Char)) : (branches .pretty texts).length =
    (branches .compact texts).length + (4 * max texts.length 1 + 1) := by
  rw [branches_pretty_eq, List.length_append]
  by_cases ht : texts = []
  · subst ht
    rfl
  · have hpos := List.length_pos_iff.mpr ht
    rw [if_neg ht, length_flatMap_line, branches, List.length_singleton]
    omega

end Syntax

/-! ## Messages without newlines -/

/-- No text, name, style or selector has a newline. -/
def Message.SingleLine (message : Message) : Prop :=
  message.Strings (Avoids · ['\n']) (Avoids · ['\n'])

theorem foreign_newline : Foreign ['\n'] := by
  simp [Foreign, isHeadChar]

theorem Escape.escape_avoids {text : List Char} (h : ∀ c ∈ text, c ∉ ['\n']) :
    ∀ c ∈ escape text, c ∉ ['\n'] := by
  unfold escape
  fun_induction scan text with
  | case1 => simp
  | case2 text ih =>
    have hrest := ih fun c hc => h c (by simp [hc])
    exact List.forall_mem_append.mpr ⟨by simp [Piece.written], hrest⟩
  | case3 c text _ ih =>
    obtain ⟨hc, htext⟩ := List.forall_mem_cons.mp h
    refine List.forall_mem_append.mpr ⟨?_, ih htext⟩
    split
    · exact List.forall_mem_cons.mpr ⟨by decide, List.forall_mem_singleton.mpr hc⟩
    · exact List.forall_mem_singleton.mpr hc

mutual

theorem Element.print_avoids : ∀ e : Element, e.Strings (Avoids · ['\n']) (Avoids · ['\n']) →
    ∀ c ∈ (e.print .compact).text, c ∉ ['\n']
  | .text _, h => Escape.escape_avoids h
  | .placeholder id, h => by
    have hid := ArgumentId.Strings.avoids foreign_newline h
    exact List.forall_mem_cons.mpr ⟨by decide, List.forall_mem_append.mpr ⟨hid, by simp⟩⟩
  | .argument id format, ⟨hid, hf⟩ => by
    have hhead := Element.argumentHead_avoids foreign_newline hid hf
    have hbody := Format.body_avoids format hf
    rw [Element.text_print_eq_head_body]
    exact List.forall_mem_cons.mpr ⟨by decide, List.forall_mem_append.mpr
      ⟨hhead, List.forall_mem_append.mpr ⟨hbody, by simp⟩⟩⟩

theorem Format.body_avoids : ∀ f : Format, f.Strings (Avoids · ['\n']) (Avoids · ['\n']) →
    ∀ c ∈ f.body .compact, c ∉ ['\n']
  | .simple _ _, _ => by simp [Format.body]
  | .branching _ _ branches, h => by
    intro c hc
    obtain ⟨text, ht, hc⟩ := List.mem_flatten.mp hc
    exact Branch.printAll_avoids branches h text ht c hc

theorem Branch.printAll_avoids : ∀ bs : List Branch,
    Branch.StringsAll (Avoids · ['\n']) (Avoids · ['\n']) bs →
      ∀ text ∈ (Branch.printAll bs).map Printed.text, ∀ c ∈ text, c ∉ ['\n']
  | [], _ => by simp [Branch.printAll]
  | ⟨selector, value⟩ :: bs, ⟨hs, hv, hbs⟩ => by
    have hvalue := Element.printAll_avoids value hv
    refine List.forall_mem_cons.mpr ⟨?_, Branch.printAll_avoids bs hbs⟩
    exact List.forall_mem_append.mpr ⟨List.forall_mem_append.mpr
      ⟨List.forall_mem_append.mpr ⟨hs, by simp⟩, hvalue⟩, by simp⟩

theorem Element.printAll_avoids : ∀ es : List Element,
    Element.StringsAll (Avoids · ['\n']) (Avoids · ['\n']) es →
      ∀ c ∈ (Element.printAll .compact es).text, c ∉ ['\n']
  | [], _ => by simp [Element.printAll]
  | e :: es, ⟨he, hes⟩ =>
    List.forall_mem_append.mpr ⟨Element.print_avoids e he, Element.printAll_avoids es hes⟩

end

/-! ## One element in both layouts -/

theorem Element.joinLines_print {e : Element}
    (h : e.Strings (Avoids · ['\n']) (Avoids · ['\n'])) (rest : List Char) :
    joinLines ((e.print .pretty).text ++ rest) = (e.print .compact).text ++ joinLines rest := by
  cases e with
  | text value => exact joinLines_append (Element.print_avoids (.text value) h) rest
  | placeholder id => exact joinLines_append (Element.print_avoids (.placeholder id) h) rest
  | argument id format =>
    cases format with
    | simple kind style =>
      exact joinLines_append (Element.print_avoids (.argument id (.simple kind style)) h) rest
    | branching kind offset branches =>
      have hhead := Element.argumentHead_avoids foreign_newline h.1 h.2
      have hbranches := Syntax.joinLines_branches (Branch.printAll_avoids branches h.2) rest
      rw [Element.text_print_eq_head_body, Element.text_print_eq_head_body]
      simp only [List.cons_append, List.append_assoc, List.nil_append, Format.body]
      rw [joinLines_cons (by decide), joinLines_append hhead, hbranches]

/-- What the pretty layout adds to an outermost element, in characters. -/
def Element.layoutLength : Element → Nat
  | .text _ | .placeholder _ | .argument _ (.simple _ _) => 0
  | .argument _ (.branching _ _ branches) => 4 * max branches.length 1 + 1

theorem Element.length_print_pretty (e : Element) : (e.print .pretty).text.length =
    (e.print .compact).text.length + e.layoutLength := by
  cases e with
  | text value => rfl
  | placeholder id => rfl
  | argument id format =>
    cases format with
    | simple kind style => rfl
    | branching kind offset branches =>
      have hlength : ((Branch.printAll branches).map Printed.text).length = branches.length := by
        rw [List.length_map, Branch.printAll_eq_map, List.length_map]
      have hbranches :=
        Syntax.length_branches_pretty ((Branch.printAll branches).map Printed.text)
      rw [Element.text_print_eq_head_body, Element.text_print_eq_head_body, Element.layoutLength]
      simp only [List.length_cons, List.length_append, Format.body, hbranches, hlength]
      omega

/-! ## Main result -/

theorem Element.joinLines_printAll {es : List Element}
    (h : Element.StringsAll (Avoids · ['\n']) (Avoids · ['\n']) es) :
    joinLines (Element.printAll .pretty es).text = (Element.printAll .compact es).text := by
  induction es with
  | nil => rfl
  | cons e es ih =>
    rw [Element.printAll, Element.printAll, Printed.text_append, Printed.text_append,
      Element.joinLines_print h.1, ih h.2]

theorem Element.length_printAll_pretty (es : List Element) :
    (Element.printAll .pretty es).text.length =
      (Element.printAll .compact es).text.length + (es.map Element.layoutLength).sum := by
  induction es with
  | nil => rfl
  | cons e es ih =>
    simp only [Element.printAll, Printed.text_append, List.length_append, List.map_cons,
      List.sum_cons, e.length_print_pretty, ih]
    omega

/-- **The pretty layout is the compact one on lines.** Without its newlines and indentation it is
the compact text; the length it adds is that of the lines of outermost arguments. -/
theorem Message.text_pretty (m : Message) :
    (m.SingleLine → joinLines (m.text .pretty).toList = (m.text .compact).toList) ∧
      (m.text .pretty).length = (m.text .compact).length + (m.map Element.layoutLength).sum := by
  simp only [Message.text, Message.print, String.toList_ofList, String.length_ofList]
  exact ⟨Element.joinLines_printAll, Element.length_printAll_pretty m⟩

/-- Selectors that begin with blanks, an argument without branches and a nested one. -/
theorem Message.text_pretty_blanks :
    let m : Message := [.text "a   ", .argument (.name "n") (.branching .select none []),
      .argument (.index 3) (.branching .plural (some (-2)) [⟨"   one", [.argument (.name "k")
        (.branching .select none [⟨"", []⟩, ⟨" b", [.text "\x7d"]⟩])]⟩, ⟨"   ", []⟩])]
    m.SingleLine ∧ joinLines (m.text .pretty).toList = (m.text .compact).toList ∧
      (m.text .pretty).length = (m.text .compact).length + 14 := by
  intro m
  have hm : m.SingleLine := by
    simp [m, Message.SingleLine, Message.Strings, Element.StringsAll, Element.Strings,
      Format.Strings, Branch.StringsAll, ArgumentId.Strings, Avoids]
  exact ⟨hm, (Message.text_pretty m).1 hm, (Message.text_pretty m).2⟩

end IcuMessage
