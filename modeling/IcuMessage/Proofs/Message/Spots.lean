/-
Messages with a spot for some of their elements. A spot is in the message
itself or in the value of an option (`Place`), between the elements before and
after it. Every element of a message, at any depth, is at some spot of it
(`exists_spot_iff`), and what is printed before and after a spot does not depend
on the elements there (`Spot.exists_text_put`).
-/
import IcuMessage.Proofs.Message.OptionPlaces

namespace IcuMessage

/-- Everything of a message but some elements that stand together, at any depth. -/
inductive Spot where
  | own (before after : Message)
  | inside (place : Place) (before after : Message)

/-- The message with these elements at the spot. -/
def Spot.put : Spot → Message → Message
  | own before after, elements => before ++ elements ++ after
  | inside place before after, elements => place.fill (before ++ elements ++ after)

/-! ## Elements and their spots -/

theorem Element.mem_preorderAll_of_mem {e : Element} {message : Message} (h : e ∈ message) :
    e ∈ Element.preorderAll message :=
  Element.mem_preorderAll.mpr ⟨e, h, Element.mem_preorder.mpr (.inl rfl)⟩

theorem Around.mem_preorderAll_fill (around : Around) {e : Element} {value : Message}
    (h : e ∈ Element.preorderAll value) : e ∈ Element.preorderAll (around.fill value) := by
  obtain ⟨c, hc, he⟩ := Element.mem_preorderAll.mp h
  have hmem : .argument around.id (around.format value) ∈ around.fill value :=
    List.mem_append_right _ List.mem_cons_self
  have hb : ⟨around.selector, value⟩ ∈ (around.format value).branches :=
    Format.mem_branches_iff.mpr ⟨_, _, _, _, rfl⟩
  exact Element.mem_preorderAll.mpr
    ⟨_, hmem, Element.mem_preorder.mpr (.inr ⟨_, _, rfl, _, hb, c, hc, he⟩)⟩

theorem Place.mem_preorderAll_fill (place : Place) {e : Element} {value : Message}
    (h : e ∈ Element.preorderAll value) : e ∈ Element.preorderAll (place.fill value) := by
  induction place with
  | option around => exact around.mem_preorderAll_fill h
  | inside around place ih => exact around.mem_preorderAll_fill ih

theorem Spot.mem_preorderAll_put (spot : Spot) (e : Element) :
    e ∈ Element.preorderAll (spot.put [e]) := by
  cases spot with
  | own before after => exact Element.mem_preorderAll_of_mem (by simp [Spot.put])
  | inside place before after =>
    exact place.mem_preorderAll_fill (Element.mem_preorderAll_of_mem (by simp))

theorem exists_own_spot {e : Element} {message : Message} (h : e ∈ message) :
    ∃ before after, before ++ [e] ++ after = message := by
  obtain ⟨before, after, rfl⟩ := List.append_of_mem h
  exact ⟨before, after, by simp⟩

section

variable {e : Element}

mutual

theorem Element.exists_spot : ∀ d : Element, e ∈ d.preorder → ∀ message : Message, d ∈ message →
    ∃ spot : Spot, spot.put [e] = message
  | .text _, h, message, hmem | .placeholder _, h, message, hmem => by
    obtain rfl := List.mem_singleton.mp h
    obtain ⟨before, after, hm⟩ := exists_own_spot hmem
    exact ⟨.own before after, hm⟩
  | .argument id format, h, message, hmem => by
    rcases List.mem_cons.mp h with rfl | hinner
    · obtain ⟨before, after, hm⟩ := exists_own_spot hmem
      exact ⟨.own before after, hm⟩
    · obtain ⟨b, hb, inner, hput⟩ := Format.exists_spot format hinner
      obtain ⟨around, rfl⟩ := exists_around_iff.mpr ⟨_, _, hmem, b, hb, rfl⟩
      cases inner with
      | own before after => exact ⟨.inside (.option around) before after, congrArg around.fill hput⟩
      | inside place before after =>
        exact ⟨.inside (.inside around place) before after, congrArg around.fill hput⟩

theorem Format.exists_spot : ∀ f : Format, e ∈ f.preorder →
    ∃ b ∈ f.branches, ∃ spot : Spot, spot.put [e] = b.value
  | .simple _ _, h => nomatch h
  | .branching _ _ branches, h => Branch.exists_spot branches h

theorem Branch.exists_spot : ∀ branches : List Branch, e ∈ Branch.preorderAll branches →
    ∃ b ∈ branches, ∃ spot : Spot, spot.put [e] = b.value
  | [], h => nomatch h
  | ⟨selector, value⟩ :: rest, h => by
    rcases List.mem_append.mp h with hvalue | hrest
    · have hspot := Element.exists_spot_mem value hvalue value (List.Subset.refl _)
      exact ⟨_, List.mem_cons_self, hspot⟩
    · obtain ⟨b, hb, hspot⟩ := Branch.exists_spot rest hrest
      exact ⟨b, List.mem_cons_of_mem _ hb, hspot⟩

theorem Element.exists_spot_mem : ∀ elements : List Element, e ∈ Element.preorderAll elements →
    ∀ message : Message, elements ⊆ message → ∃ spot : Spot, spot.put [e] = message
  | [], h, _, _ => nomatch h
  | d :: rest, h, message, hsub => by
    obtain ⟨hd, hrest⟩ := List.cons_subset.mp hsub
    rcases List.mem_append.mp h with h | h
    · exact Element.exists_spot d h message hd
    · exact Element.exists_spot_mem rest h message hrest

end

end

/-- Every element of a message, at any depth, is at a spot of it. -/
theorem exists_spot_iff {message : Message} {e : Element} :
    (∃ spot : Spot, spot.put [e] = message) ↔ e ∈ Element.preorderAll message := by
  constructor
  · rintro ⟨spot, rfl⟩
    exact spot.mem_preorderAll_put e
  · intro h
    exact Element.exists_spot_mem message h message (List.Subset.refl _)

/-! ## Texts around a spot -/

/-- The layout of the elements at the spot where the message is printed in a layout. -/
def Spot.layout : Spot → Layout → Layout
  | own _ _, layout => layout
  | inside _ _ _, _ => .compact

/-- Strings before and after a spot that whatever is put there stands between. -/
theorem Spot.exists_text_put (spot : Spot) (layout : Layout) : ∃ before after : List Char,
    ∀ elements : Message, (Element.printAll layout (spot.put elements)).text =
      before ++ (Element.printAll (spot.layout layout) elements).text ++ after := by
  cases spot with
  | own before after =>
    refine ⟨(Element.printAll layout before).text, (Element.printAll layout after).text,
      fun elements => ?_⟩
    rw [put, Element.text_printAll_append, Element.text_printAll_append, Spot.layout]
  | inside place before after =>
    obtain ⟨lead, trail, hfill⟩ := place.exists_text_fill layout
    refine ⟨lead ++ (Element.printAll .compact before).text,
      (Element.printAll .compact after).text ++ trail, fun elements => ?_⟩
    rw [put, hfill, Element.text_printAll_append, Element.text_printAll_append, Spot.layout]
    simp only [List.append_assoc]

end IcuMessage
