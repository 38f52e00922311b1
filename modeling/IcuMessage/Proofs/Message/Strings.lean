/-
The strings of a message, at every depth: its texts, which are printed escaped,
and its names, styles and selectors, which are printed as they are. Characters
that none of the latter holds and that printing itself does not use around them
(`Foreign`) do not occur in what stands before the branches of an argument, nor
before its end if it has none (`Format.head_avoids`).
-/
import IcuMessage.Proofs.UniqueReading

namespace IcuMessage

/-! ## What is asked of all strings -/

def ArgumentId.Strings (raw : String → Prop) : ArgumentId → Prop
  | .index _ => True
  | .name value => raw value

mutual

def Element.Strings (text raw : String → Prop) : Element → Prop
  | .text value => text value
  | .placeholder id => id.Strings raw
  | .argument id format => id.Strings raw ∧ format.Strings text raw

def Format.Strings (text raw : String → Prop) : Format → Prop
  | .simple _ style => ∀ s ∈ style, raw s
  | .branching _ _ branches => Branch.StringsAll text raw branches

def Branch.StringsAll (text raw : String → Prop) : List Branch → Prop
  | [] => True
  | ⟨selector, value⟩ :: rest =>
    raw selector ∧ Element.StringsAll text raw value ∧ Branch.StringsAll text raw rest

def Element.StringsAll (text raw : String → Prop) : List Element → Prop
  | [] => True
  | element :: rest => element.Strings text raw ∧ Element.StringsAll text raw rest

end

/-- Every text is as `text` says, and every name, style and selector as `raw` says. -/
def Message.Strings (text raw : String → Prop) (message : Message) : Prop :=
  Element.StringsAll text raw message

/-! ## Characters that occur nowhere -/

/-- The characters that printing itself puts before the branches of an argument. -/
def isHeadChar (c : Char) : Bool :=
  c.isAlphanum || [',', ' ', ':', '-'].contains c

def Foreign (stops : List Char) : Prop :=
  ∀ c ∈ stops, isHeadChar c = false

section

variable {stops : List Char} (hs : Foreign stops)
include hs

theorem Foreign.avoids {text : List Char} (h : text.all isHeadChar = true) :
    ∀ c ∈ text, c ∉ stops := by
  intro c hc hstop
  have hhead : isHeadChar c = true := List.all_eq_true.mp h c hc
  rw [hs c hstop] at hhead
  exact absurd hhead Bool.false_ne_true

theorem Foreign.avoids_digits {digits : List Char}
    (h : ∀ c ∈ digits, c = '-' ∨ c.isDigit = true) : ∀ c ∈ digits, c ∉ stops := by
  refine hs.avoids (List.all_eq_true.mpr fun c hc => ?_)
  rcases h c hc with rfl | hd
  · decide
  · simp [isHeadChar, Char.isAlphanum, hd]

theorem ArgumentId.Strings.avoids {id : ArgumentId} (h : id.Strings (Avoids · stops)) :
    ∀ c ∈ id.text, c ∉ stops := by
  cases id with
  | index position => exact hs.avoids_digits fun c hc => .inr (Decimal.isDigit_of_mem_natural hc)
  | name value => exact h

theorem ArgumentType.name_avoids_of_foreign (type : ArgumentType) :
    ∀ c ∈ type.name.toList, c ∉ stops := by
  refine hs.avoids ?_
  rcases type with ⟨_ | _ | _⟩ | ⟨_ | _ | _⟩ <;> decide

theorem Syntax.styleClause_avoids_of_foreign {style : Option String}
    (h : ∀ s ∈ style, Avoids s stops) : ∀ c ∈ styleClause style, c ∉ stops := by
  cases style with
  | none => simp [styleClause]
  | some s =>
    rw [styleClause]
    split
    · simp
    · exact List.forall_mem_append.mpr ⟨hs.avoids (by decide), h s rfl⟩

theorem Syntax.offsetClause_avoids (offset : Option Int64) :
    ∀ c ∈ offsetClause offset, c ∉ stops := by
  cases offset with
  | none => simp [offsetClause]
  | some n =>
    rw [offsetClause]
    split
    · simp
    · exact List.forall_mem_append.mpr
        ⟨hs.avoids (by decide), hs.avoids_digits fun c => Decimal.isDigit_of_mem_integer⟩

end

/-- The type of a format, and what is printed of the format before its branches. -/
def Format.head : Format → List Char
  | .simple kind style => (ArgumentType.simple kind).name.toList ++ Syntax.styleClause style
  | .branching kind offset _ =>
    (ArgumentType.branching kind).name.toList ++ Syntax.offsetClause offset ++ [',']

/-- What is printed of a format after its head. -/
def Format.body (layout : Layout) : Format → List Char
  | .simple _ _ => []
  | .branching _ _ branches => Syntax.branches layout ((Branch.printAll branches).map Printed.text)

def Element.argumentHead (id : ArgumentId) (format : Format) : List Char :=
  id.text ++ ", ".toList ++ format.head

theorem Element.text_print_eq_head_body (layout : Layout) (id : ArgumentId) (format : Format) :
    ((Element.argument id format).print layout).text =
      '{' :: (Element.argumentHead id format ++ (format.body layout ++ ['}'])) := by
  cases format <;>
    simp [Element.print, Syntax.simple, Syntax.branching, Element.argumentHead, Format.head,
      Format.body]

theorem Format.head_avoids {stops : List Char} (hs : Foreign stops) {text : String → Prop}
    {format : Format} (h : format.Strings text (Avoids · stops)) :
    ∀ c ∈ format.head, c ∉ stops := by
  have hname := ArgumentType.name_avoids_of_foreign hs format.type
  cases format with
  | simple kind style =>
    exact List.forall_mem_append.mpr ⟨hname, Syntax.styleClause_avoids_of_foreign hs h⟩
  | branching kind offset branches =>
    have hoffset := Syntax.offsetClause_avoids hs offset
    exact List.forall_mem_append.mpr
      ⟨List.forall_mem_append.mpr ⟨hname, hoffset⟩, hs.avoids (by decide)⟩

theorem Element.argumentHead_avoids {stops : List Char} (hs : Foreign stops)
    {text : String → Prop} {id : ArgumentId} {format : Format}
    (hid : id.Strings (Avoids · stops)) (hf : format.Strings text (Avoids · stops)) :
    ∀ c ∈ Element.argumentHead id format, c ∉ stops :=
  List.forall_mem_append.mpr
    ⟨List.forall_mem_append.mpr ⟨ArgumentId.Strings.avoids hs hid, hs.avoids (by decide)⟩,
      Format.head_avoids hs hf⟩

end IcuMessage
