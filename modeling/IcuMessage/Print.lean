/-
Printing a message in message syntax. A formatted argument is `{id, type}`,
`{id, type, style}` or `{id, type, offset:N,` with its branches and `}`; an
empty style and a zero offset are left out. In the pretty layout the branches
stand on lines of their own, but only those of outermost arguments: the value
of a branch is always printed compactly.

Printing also lists the formatted arguments it meets, each before those
inside its branches. Neither part of the outcome depends on the other.
-/
import IcuMessage.Message
import IcuMessage.Escape

namespace IcuMessage

inductive Layout where
  | compact
  | pretty
  deriving DecidableEq, Repr, Inhabited

/-- What printing yields: the text, and the formatted arguments in the order they were met. -/
structure Printed where
  text : List Char
  arguments : List (ArgumentId × ArgumentType)
  deriving DecidableEq, Repr

namespace Printed

def ofText (text : List Char) : Printed :=
  ⟨text, []⟩

def append (a b : Printed) : Printed :=
  ⟨a.text ++ b.text, a.arguments ++ b.arguments⟩

instance : Append Printed :=
  ⟨append⟩

@[simp] theorem text_append (a b : Printed) : (a ++ b).text = a.text ++ b.text :=
  rfl

@[simp] theorem arguments_append (a b : Printed) :
    (a ++ b).arguments = a.arguments ++ b.arguments :=
  rfl

end Printed

namespace Syntax

/-! ## One argument -/

def placeholder (id : ArgumentId) : List Char :=
  '{' :: id.text ++ ['}']

def styleClause : Option String → List Char
  | some style => if style.isEmpty then [] else ", ".toList ++ style.toList
  | none => []

def simple (id : ArgumentId) (type : ArgumentType) (style : Option String) : List Char :=
  '{' :: id.text ++ ", ".toList ++ type.name.toList ++ styleClause style ++ ['}']

def offsetClause : Option Int64 → List Char
  | some offset => if offset = 0 then [] else ", offset:".toList ++ Decimal.integer offset.toInt
  | none => []

def branch (selector : String) (value : List Char) : List Char :=
  selector.toList ++ [' ', '{'] ++ value ++ ['}']

/-- The branches in a layout. Without any, the pretty layout still gives an indented line. -/
def branches : Layout → List (List Char) → List Char
  | .compact, texts => texts.flatten
  | .pretty, texts => "\n   ".toList ++ List.intercalate "\n   ".toList texts ++ ['\n']

def branching (layout : Layout) (id : ArgumentId) (type : ArgumentType) (offset : Option Int64)
    (texts : List (List Char)) : List Char :=
  '{' :: id.text ++ ", ".toList ++ type.name.toList ++ offsetClause offset ++ [','] ++
    branches layout texts ++ ['}']

end Syntax

/-! ## The tree -/

mutual

def Element.print (layout : Layout) : Element → Printed
  | .text value => .ofText (Escape.escape value.toList)
  | .placeholder id => .ofText (Syntax.placeholder id)
  | .argument id (.simple kind style) =>
    ⟨Syntax.simple id (.simple kind) style, [(id, .simple kind)]⟩
  | .argument id (.branching kind offset branches) =>
    let printed := Branch.printAll branches
    ⟨Syntax.branching layout id (.branching kind) offset (printed.map Printed.text),
      (id, .branching kind) :: printed.flatMap Printed.arguments⟩

def Branch.printAll : List Branch → List Printed
  | [] => []
  | ⟨selector, value⟩ :: rest =>
    let printed := Element.printAll .compact value
    ⟨Syntax.branch selector printed.text, printed.arguments⟩ :: Branch.printAll rest

def Element.printAll (layout : Layout) : List Element → Printed
  | [] => ⟨[], []⟩
  | element :: rest => element.print layout ++ Element.printAll layout rest

end

def Branch.print (branch : Branch) : Printed :=
  let printed := Element.printAll .compact branch.value
  ⟨Syntax.branch branch.selector printed.text, printed.arguments⟩

theorem Branch.printAll_eq_map (branches : List Branch) :
    Branch.printAll branches = branches.map Branch.print := by
  induction branches with
  | nil => rfl
  | cons branch rest ih => cases branch; rw [Branch.printAll, ih]; rfl

namespace Message

def print (layout : Layout) (message : Message) : Printed :=
  Element.printAll layout message

/-- The message in message syntax. -/
def text (layout : Layout) (message : Message) : String :=
  String.ofList (message.print layout).text

@[simp] theorem print_nil (layout : Layout) : print layout [] = ⟨[], []⟩ :=
  rfl

@[simp] theorem print_cons (layout : Layout) (element : Element) (rest : Message) :
    print layout (element :: rest) = element.print layout ++ print layout rest :=
  rfl

end Message

end IcuMessage
