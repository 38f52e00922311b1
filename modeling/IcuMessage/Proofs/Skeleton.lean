/-
The braces of printed messages. A reader that skips every backslash together
with the character after it meets only braces that printing put there
(`Escape.braces`): an escaped text has none, wherever it stands
(`Escape.braces_escape_append`).

So the braces of a message are its skeleton, a Dyck word that knows nothing of
the texts and nothing of the layout (`Message.braces_text`). They are balanced,
and no text can close what it did not open.
-/
import Mathlib.Combinatorics.Enumerative.DyckWord
import IcuMessage.Proofs.Message.Strings

namespace IcuMessage

/-! ## Braces -/

namespace Escape

/-- The braces of a text, each backslash skipped together with the character after it. -/
def braces : List Char → List Char
  | [] => []
  | '\\' :: _ :: rest => braces rest
  | c :: rest => if c = '{' ∨ c = '}' then c :: braces rest else braces rest

theorem braces_brace {c : Char} (h : c = '{' ∨ c = '}') (rest : List Char) :
    braces (c :: rest) = c :: braces rest := by
  rw [braces, if_pos h]
  rintro d ds rfl
  simp at h

theorem braces_plain {c : Char} (h : isSpecial c = false) (rest : List Char) :
    braces (c :: rest) = braces rest := by
  simp only [isSpecial, Bool.or_eq_false_iff, decide_eq_false_iff_not] at h
  obtain ⟨⟨hopen, hclose⟩, hbackslash⟩ := h
  rw [braces, if_neg (by simp [hopen, hclose])]
  exact fun _ _ he => absurd he hbackslash

theorem braces_append_of_avoids {text : List Char} (h : ∀ c ∈ text, c ∉ ['{', '}', '\\'])
    (rest : List Char) : braces (text ++ rest) = braces rest := by
  induction text with
  | nil => rfl
  | cons c text ih =>
    obtain ⟨hc, htext⟩ := List.forall_mem_cons.mp h
    rw [List.cons_append, braces_plain (by simpa [isSpecial, and_assoc] using hc), ih htext]

/-- After an escaped text the scan goes on as if it had just begun. -/
theorem braces_escape_append (text rest : List Char) :
    braces (escape text ++ rest) = braces rest := by
  unfold escape
  fun_induction scan text with
  | case1 => rfl
  | case2 text ih => exact ih
  | case3 c text _ ih =>
    by_cases hc : isSpecial c = true
    · rw [if_pos hc]
      exact ih
    · rw [if_neg hc, List.flatMap_cons, List.append_assoc]
      exact (braces_plain (by simpa using hc) _).trans ih

end Escape

/-! ## Skeletons -/

mutual

def Element.skeleton : Element → DyckWord
  | .text _ => 0
  | .placeholder _ | .argument _ (.simple _ _) => .nest 0
  | .argument _ (.branching _ _ branches) => (Branch.skeletonAll branches).nest

def Branch.skeletonAll : List Branch → DyckWord
  | [] => 0
  | ⟨_, value⟩ :: rest => (Element.skeletonAll value).nest + Branch.skeletonAll rest

def Element.skeletonAll : List Element → DyckWord
  | [] => 0
  | element :: rest => element.skeleton + Element.skeletonAll rest

end

/-- Nothing for a text, a pair of braces for an argument, and in it a pair for every option,
around the skeleton of the option's value. -/
def Message.skeleton (message : Message) : DyckWord :=
  Element.skeletonAll message

def brace : DyckStep → Char
  | .U => '{'
  | .D => '}'

theorem brace_injective : Function.Injective brace := by
  intro a b h
  cases a <;> cases b <;> simp [brace] at h ⊢

/-- The braces a skeleton stands for. -/
def bracesOf (word : DyckWord) : List Char :=
  word.toList.map brace

theorem bracesOf_add (p q : DyckWord) : bracesOf (p + q) = bracesOf p ++ bracesOf q :=
  List.map_append

theorem bracesOf_nest (p : DyckWord) : bracesOf p.nest = '{' :: (bracesOf p ++ ['}']) := by
  simp [bracesOf, DyckWord.nest, brace]

theorem count_open_eq_count_close (word : DyckWord) :
    (bracesOf word).count '{' = (bracesOf word).count '}' := by
  have hu := List.count_map_of_injective word.toList brace brace_injective .U
  have hd := List.count_map_of_injective word.toList brace brace_injective .D
  exact hu.trans (word.count_U_eq_count_D.trans hd.symm)

theorem count_close_le_count_open (word : DyckWord) (n : Nat) :
    ((bracesOf word).take n).count '}' ≤ ((bracesOf word).take n).count '{' := by
  have hu := List.count_map_of_injective (word.toList.take n) brace brace_injective .U
  have hd := List.count_map_of_injective (word.toList.take n) brace brace_injective .D
  rw [bracesOf, ← List.map_take]
  exact hd.le.trans ((word.count_D_le_count_U n).trans hu.ge)

/-! ## The tree -/

/-- No name, style or selector has a brace or a backslash. -/
def Message.BracesInTexts (message : Message) : Prop :=
  message.Strings (fun _ => True) (Avoids · ['{', '}', '\\'])

theorem foreign_braces : Foreign ['{', '}', '\\'] := by
  simp [Foreign, isHeadChar]

theorem braces_branches (layout : Layout) {bs : List Branch} {skeleton : List Char}
    (h : ∀ lead, (∀ c ∈ lead, c ∉ ['{', '}', '\\']) → ∀ rest,
      Escape.braces (Syntax.branchTexts lead bs ++ rest) = skeleton ++ Escape.braces rest)
    (rest : List Char) : Escape.braces (Syntax.branches layout
      ((Branch.printAll bs).map Printed.text) ++ rest) = skeleton ++ Escape.braces rest := by
  cases layout with
  | compact =>
    rw [Syntax.branches_compact]
    exact h [] (by simp) rest
  | pretty =>
    cases bs with
    | nil =>
      have hline : ∀ c ∈ Syntax.branches .pretty ((Branch.printAll []).map Printed.text),
          c ∉ ['{', '}', '\\'] := by
        simp [Branch.printAll, Syntax.branches]
      exact (Escape.braces_append_of_avoids hline rest).trans (h [] (by simp) rest)
    | cons b bs =>
      rw [Syntax.branches_pretty, List.append_assoc, h _ (by simp),
        Escape.braces_append_of_avoids (by simp)]

mutual

theorem Element.braces_print (layout : Layout) : ∀ (e : Element) (rest : List Char),
    e.Strings (fun _ => True) (Avoids · ['{', '}', '\\']) →
      Escape.braces ((e.print layout).text ++ rest) = bracesOf e.skeleton ++ Escape.braces rest
  | .text value, rest, _ => Escape.braces_escape_append value.toList rest
  | .placeholder id, rest, h => by
    have hid := ArgumentId.Strings.avoids foreign_braces h
    simp only [Element.print, Printed.ofText, Syntax.placeholder, List.cons_append,
      List.append_assoc, List.nil_append]
    rw [Escape.braces_brace (.inl rfl), Escape.braces_append_of_avoids hid,
      Escape.braces_brace (.inr rfl)]
    rfl
  | .argument id format, rest, ⟨hid, hf⟩ => by
    have hhead := Element.argumentHead_avoids foreign_braces hid hf
    rw [Element.text_print_eq_head_body]
    simp only [List.cons_append, List.append_assoc, List.nil_append]
    rw [Escape.braces_brace (.inl rfl), Escape.braces_append_of_avoids hhead]
    cases format with
    | simple kind style => rfl
    | branching kind offset branches =>
      have hbranches := braces_branches layout
        (fun _ hlead rest => Branch.braces_branchTexts hlead branches rest hf) ('}' :: rest)
      rw [Format.body, hbranches, Escape.braces_brace (.inr rfl), Element.skeleton, bracesOf_nest]
      simp

theorem Branch.braces_branchTexts {lead : List Char} (hlead : ∀ c ∈ lead, c ∉ ['{', '}', '\\']) :
    ∀ (bs : List Branch) (rest : List Char),
      Branch.StringsAll (fun _ => True) (Avoids · ['{', '}', '\\']) bs →
        Escape.braces (Syntax.branchTexts lead bs ++ rest) =
          bracesOf (Branch.skeletonAll bs) ++ Escape.braces rest
  | [], rest, _ => rfl
  | ⟨selector, value⟩ :: bs, rest, ⟨hs, hv, hbs⟩ => by
    simp only [Syntax.branchTexts, Syntax.branch, List.append_assoc, List.cons_append,
      List.nil_append]
    rw [Escape.braces_append_of_avoids hlead, Escape.braces_append_of_avoids hs,
      Escape.braces_plain (by decide), Escape.braces_brace (.inl rfl),
      Element.braces_printAll .compact value _ hv, Escape.braces_brace (.inr rfl),
      Branch.braces_branchTexts hlead bs rest hbs, Branch.skeletonAll, bracesOf_add, bracesOf_nest]
    simp

theorem Element.braces_printAll (layout : Layout) : ∀ (es : List Element) (rest : List Char),
    Element.StringsAll (fun _ => True) (Avoids · ['{', '}', '\\']) es →
      Escape.braces ((Element.printAll layout es).text ++ rest) =
        bracesOf (Element.skeletonAll es) ++ Escape.braces rest
  | [], rest, _ => rfl
  | e :: es, rest, ⟨he, hes⟩ => by
    rw [Element.printAll, Printed.text_append, List.append_assoc,
      Element.braces_print layout e _ he, Element.braces_printAll layout es rest hes,
      Element.skeletonAll, bracesOf_add, List.append_assoc]

end

/-! ## Messages that differ in their texts -/

mutual

def Element.textless : Element → Element
  | .text _ => .text ""
  | .placeholder id => .placeholder id
  | .argument id format => .argument id format.textless

def Format.textless : Format → Format
  | .simple kind style => .simple kind style
  | .branching kind offset branches => .branching kind offset (Branch.textlessAll branches)

def Branch.textlessAll : List Branch → List Branch
  | [] => []
  | ⟨selector, value⟩ :: rest => ⟨selector, Element.textlessAll value⟩ :: Branch.textlessAll rest

def Element.textlessAll : List Element → List Element
  | [] => []
  | element :: rest => element.textless :: Element.textlessAll rest

end

/-- The message with every text emptied, at every depth. -/
def Message.textless (message : Message) : Message :=
  Element.textlessAll message

mutual

theorem Element.skeleton_textless : ∀ e : Element, e.textless.skeleton = e.skeleton
  | .text _ | .placeholder _ | .argument _ (.simple _ _) => rfl
  | .argument _ (.branching _ _ branches) =>
    congrArg DyckWord.nest (Branch.skeletonAll_textlessAll branches)

theorem Branch.skeletonAll_textlessAll : ∀ branches : List Branch,
    Branch.skeletonAll (Branch.textlessAll branches) = Branch.skeletonAll branches
  | [] => rfl
  | ⟨selector, value⟩ :: rest => by
    rw [Branch.textlessAll, Branch.skeletonAll, Branch.skeletonAll,
      Element.skeletonAll_textlessAll value, Branch.skeletonAll_textlessAll rest]

theorem Element.skeletonAll_textlessAll : ∀ elements : List Element,
    Element.skeletonAll (Element.textlessAll elements) = Element.skeletonAll elements
  | [] => rfl
  | element :: rest => by
    rw [Element.textlessAll, Element.skeletonAll, Element.skeletonAll,
      Element.skeleton_textless element, Element.skeletonAll_textlessAll rest]

end

section

variable {raw : String → Prop}

mutual

theorem Element.strings_textless : ∀ e : Element,
    e.textless.Strings (fun _ => True) raw ↔ e.Strings (fun _ => True) raw
  | .text _ | .placeholder _ => Iff.rfl
  | .argument _ format => and_congr_right' (Format.strings_textless format)

theorem Format.strings_textless : ∀ format : Format,
    format.textless.Strings (fun _ => True) raw ↔ format.Strings (fun _ => True) raw
  | .simple _ _ => Iff.rfl
  | .branching _ _ branches => Branch.stringsAll_textlessAll branches

theorem Branch.stringsAll_textlessAll : ∀ branches : List Branch,
    Branch.StringsAll (fun _ => True) raw (Branch.textlessAll branches) ↔
      Branch.StringsAll (fun _ => True) raw branches
  | [] => Iff.rfl
  | ⟨_, value⟩ :: rest => and_congr_right'
    (and_congr (Element.stringsAll_textlessAll value) (Branch.stringsAll_textlessAll rest))

theorem Element.stringsAll_textlessAll : ∀ elements : List Element,
    Element.StringsAll (fun _ => True) raw (Element.textlessAll elements) ↔
      Element.StringsAll (fun _ => True) raw elements
  | [] => Iff.rfl
  | element :: rest =>
    and_congr (Element.strings_textless element) (Element.stringsAll_textlessAll rest)

end

end

/-! ## Main result -/

theorem Message.braces_text_eq {m : Message} (h : m.BracesInTexts) (layout : Layout) :
    Escape.braces (m.text layout).toList = bracesOf m.skeleton := by
  have hbraces := Element.braces_printAll layout m [] h
  rw [List.append_nil] at hbraces
  rw [Message.text, String.toList_ofList, Message.print, hbraces]
  exact List.append_nil _

/-- **No text breaks out of its place.** The braces that are not escaped are those of the skeleton,
in either layout and whatever the texts are. -/
theorem Message.braces_text {m : Message} (h : m.BracesInTexts) (layout : Layout) :
    let braces := Escape.braces (m.text layout).toList
    braces = bracesOf m.skeleton ∧
      braces.count '{' = braces.count '}' ∧
      (∀ n, (braces.take n).count '}' ≤ (braces.take n).count '{') ∧
      ∀ (other : Message) (layout' : Layout), other.textless = m.textless →
        Escape.braces (other.text layout').toList = braces := by
  intro braces
  have hm : braces = bracesOf m.skeleton := Message.braces_text_eq h layout
  refine ⟨hm, ?_, ?_, fun other layout' hsame => ?_⟩
  · rw [hm, count_open_eq_count_close]
  · intro n
    rw [hm]
    exact count_close_le_count_open _ n
  · have hother : other.BracesInTexts := by
      refine (Element.stringsAll_textlessAll other).mp ?_
      show Message.Strings _ _ other.textless
      rw [hsame]
      exact (Element.stringsAll_textlessAll m).mpr h
    have hskeleton : other.skeleton = m.skeleton := by
      rw [Message.skeleton, ← Element.skeletonAll_textlessAll other]
      show Message.skeleton other.textless = m.skeleton
      rw [hsame]
      exact Element.skeletonAll_textlessAll m
    rw [hm, Message.braces_text_eq hother, hskeleton]

/-- Texts that end in a backslash before a brace, and others in their places. -/
theorem Message.braces_text_backslashes :
    let m : Message := [.text "\\\\#\x7d\\", .argument (.name "n") (.branching .plural (some 1)
      [⟨"one", [.text "\x7b\\#\\", .placeholder (.index 0)]⟩, ⟨"", [.text "\\"]⟩])]
    let other : Message := [.text "", .argument (.name "n") (.branching .plural (some 1)
      [⟨"one", [.text "one", .placeholder (.index 0)]⟩, ⟨"", [.text "\x7d\x7b"]⟩])]
    m.BracesInTexts ∧ other.textless = m.textless ∧
      Escape.braces (m.text .pretty).toList = ['{', '{', '{', '}', '}', '{', '}', '}'] ∧
      Escape.braces (other.text .compact).toList = Escape.braces (m.text .pretty).toList := by
  intro m other
  have hm : m.BracesInTexts := by
    simp [m, Message.BracesInTexts, Message.Strings, Element.StringsAll, Element.Strings,
      Format.Strings, Branch.StringsAll, ArgumentId.Strings, Avoids]
  have hsame : other.textless = m.textless := rfl
  obtain ⟨hskeleton, -, -, hothers⟩ := Message.braces_text hm .pretty
  exact ⟨hm, hsame, hskeleton.trans rfl, hothers other .compact hsame⟩

end IcuMessage
