/-
The elements of a message in document order: each before those in its options,
options and their elements from left to right. Printing goes through them in
that order, so the arguments it lists are those of the elements that have a
format (`Element.arguments_print`).
-/
import IcuMessage.Print

namespace IcuMessage

mutual

/-- The element, then all elements in its options, each before those in its own options, options
and their elements from left to right. -/
def Element.preorder : Element → List Element
  | .text value => [.text value]
  | .placeholder id => [.placeholder id]
  | .argument id format => .argument id format :: format.preorder

def Format.preorder : Format → List Element
  | .simple _ _ => []
  | .branching _ _ branches => Branch.preorderAll branches

def Branch.preorderAll : List Branch → List Element
  | [] => []
  | ⟨_, value⟩ :: rest => Element.preorderAll value ++ Branch.preorderAll rest

def Element.preorderAll : List Element → List Element
  | [] => []
  | element :: rest => element.preorder ++ Element.preorderAll rest

end

theorem Branch.mem_preorderAll {branches : List Branch} {e : Element} :
    e ∈ Branch.preorderAll branches ↔ ∃ b ∈ branches, e ∈ Element.preorderAll b.value := by
  induction branches with
  | nil => simp [Branch.preorderAll]
  | cons b rest ih =>
    obtain ⟨selector, value⟩ := b
    simp [Branch.preorderAll, Branch.value, ih]

theorem Element.mem_preorderAll {elements : List Element} {e : Element} :
    e ∈ Element.preorderAll elements ↔ ∃ c ∈ elements, e ∈ c.preorder := by
  induction elements with
  | nil => simp [Element.preorderAll]
  | cons c rest ih => simp [Element.preorderAll, ih]

theorem Format.mem_preorder {f : Format} {e : Element} :
    e ∈ f.preorder ↔ ∃ b ∈ f.branches, ∃ c ∈ b.value, e ∈ c.preorder := by
  cases f with
  | simple kind style => simp [Format.preorder, Format.branches]
  | branching kind offset branches =>
    simp only [Format.preorder, Branch.mem_preorderAll, Element.mem_preorderAll, Format.branches]

/-- An element in document order is the first, or stands in an option of its format. -/
theorem Element.mem_preorder {d e : Element} :
    d ∈ e.preorder ↔ d = e ∨ ∃ id f, e = .argument id f ∧
      ∃ b ∈ f.branches, ∃ c ∈ b.value, d ∈ c.preorder := by
  cases e with
  | text value => simp [Element.preorder]
  | placeholder id => simp [Element.preorder]
  | argument id f => simp [Element.preorder, Format.mem_preorder, and_assoc]

/-- The name and the type of an argument that has a format. -/
def Element.formatted? : Element → Option (ArgumentId × ArgumentType)
  | .text _ | .placeholder _ => none
  | .argument id format => some (id, format.type)

mutual

theorem Element.arguments_print (layout : Layout) : ∀ e : Element,
    (e.print layout).arguments = e.preorder.filterMap Element.formatted?
  | .text _ => rfl
  | .placeholder _ => rfl
  | .argument _ (.simple _ _) => rfl
  | .argument id (.branching kind offset branches) => by
    have hself : Element.formatted? (.argument id (.branching kind offset branches)) =
        some (id, .branching kind) := rfl
    rw [Element.print, Element.preorder, Format.preorder, List.filterMap_cons_some hself,
      ← Branch.arguments_printAll branches]

theorem Branch.arguments_printAll : ∀ branches : List Branch,
    (Branch.printAll branches).flatMap Printed.arguments =
      (Branch.preorderAll branches).filterMap Element.formatted?
  | [] => rfl
  | ⟨_, value⟩ :: rest => by
    rw [Branch.printAll, List.flatMap_cons, Branch.preorderAll, List.filterMap_append,
      ← Branch.arguments_printAll rest, ← Element.arguments_printAll .compact value]

theorem Element.arguments_printAll (layout : Layout) : ∀ elements : List Element,
    (Element.printAll layout elements).arguments =
      (Element.preorderAll elements).filterMap Element.formatted?
  | [] => rfl
  | e :: rest => by
    rw [Element.printAll, Printed.arguments_append, Element.preorderAll, List.filterMap_append,
      Element.arguments_print layout e, Element.arguments_printAll layout rest]

end

end IcuMessage
