/-
Messages with a place for the value of one option. A place is what surrounds the
value, from the outermost argument inwards (`Place.fill`), and every option value
of a message is in some place of it (`exists_place_iff`). What is printed before
and after a place is fixed, and the value between the two is printed compactly
whatever the layout of the whole (`Place.exists_text_fill`).
-/
import IcuMessage.Session
import IcuMessage.Proofs.Message.Strings
import IcuMessage.Proofs.Message.Preorder

namespace IcuMessage

/-! ## Places -/

/-- Everything of a message but the value of one option of one of its own arguments. -/
structure Around where
  before : Message
  id : ArgumentId
  kind : BranchKind
  offset : Option Int64
  earlier : List Branch
  selector : String
  later : List Branch
  after : Message

namespace Around

def format (around : Around) (value : Message) : Format :=
  .branching around.kind around.offset (around.earlier ++ ⟨around.selector, value⟩ :: around.later)

def fill (around : Around) (value : Message) : Message :=
  around.before ++ .argument around.id (around.format value) :: around.after

end Around

/-- The place of an option value, at any depth. -/
inductive Place where
  | option (around : Around)
  | inside (around : Around) (place : Place)

def Place.fill : Place → Message → Message
  | option around, value => around.fill value
  | inside around place, value => around.fill (place.fill value)

theorem Format.mem_branches_iff {f : Format} {b : Branch} : b ∈ f.branches ↔
    ∃ kind offset earlier later, f = .branching kind offset (earlier ++ b :: later) := by
  constructor
  · intro hb
    cases f with
    | simple kind style => nomatch hb
    | branching kind offset branches =>
      obtain ⟨earlier, later, rfl⟩ := List.append_of_mem hb
      exact ⟨kind, offset, earlier, later, rfl⟩
  · rintro ⟨kind, offset, earlier, later, rfl⟩
    exact List.mem_append_right _ List.mem_cons_self

/-- An argument of the message itself and the value of one of its options, as a place and what is
in it. -/
theorem exists_around_iff {message value : Message} :
    (∃ around : Around, around.fill value = message) ↔
      ∃ id f, .argument id f ∈ message ∧ ∃ b ∈ f.branches, b.value = value := by
  constructor
  · rintro ⟨around, rfl⟩
    exact ⟨around.id, around.format value, List.mem_append_right _ List.mem_cons_self,
      ⟨around.selector, value⟩, Format.mem_branches_iff.mpr ⟨_, _, _, _, rfl⟩, rfl⟩
  · rintro ⟨id, f, hmem, ⟨selector, value⟩, hb, rfl⟩
    obtain ⟨kind, offset, earlier, later, rfl⟩ := Format.mem_branches_iff.mp hb
    obtain ⟨before, after, rfl⟩ := List.append_of_mem hmem
    exact ⟨⟨before, id, kind, offset, earlier, selector, later, after⟩, rfl⟩

theorem Place.argument_mem_preorder (place : Place) (value : Message) :
    ∃ id f, .argument id f ∈ Element.preorderAll (place.fill value) ∧
      ∃ b ∈ f.branches, b.value = value := by
  induction place with
  | option around =>
    obtain ⟨id, f, hmem, hb⟩ := exists_around_iff.mp ⟨around, rfl⟩
    exact ⟨id, f, Element.mem_preorderAll.mpr ⟨_, hmem, Element.mem_preorder.mpr (.inl rfl)⟩, hb⟩
  | inside around place ih =>
    obtain ⟨id, f, hmem, b, hb, hvalue⟩ := exists_around_iff.mp ⟨around, rfl⟩
    obtain ⟨innerId, inner, hinner, hin⟩ := ih
    obtain ⟨c, hc, hinner⟩ := Element.mem_preorderAll.mp hinner
    refine ⟨innerId, inner, Element.mem_preorderAll.mpr ⟨_, hmem, ?_⟩, hin⟩
    exact Element.mem_preorder.mpr (.inr ⟨id, f, rfl, b, hb, c, hvalue ▸ hc, hinner⟩)

section

variable {id : ArgumentId} {f : Format} {b : Branch}

mutual

theorem Element.exists_place (hb : b ∈ f.branches) : ∀ e : Element, .argument id f ∈ e.preorder →
    ∀ message : Message, e ∈ message → ∃ place : Place, place.fill b.value = message
  | .text _, h, _, _ | .placeholder _, h, _, _ => by nomatch List.mem_singleton.mp h
  | .argument outer format, h, message, hmem => by
    rcases List.mem_cons.mp h with hself | hinner
    · cases hself
      obtain ⟨around, rfl⟩ := exists_around_iff.mpr ⟨_, _, hmem, b, hb, rfl⟩
      exact ⟨.option around, rfl⟩
    · obtain ⟨c, hc, place, hplace⟩ := Format.exists_place hb format hinner
      obtain ⟨around, rfl⟩ := exists_around_iff.mpr ⟨_, _, hmem, c, hc, rfl⟩
      exact ⟨.inside around place, congrArg around.fill hplace⟩

theorem Format.exists_place (hb : b ∈ f.branches) : ∀ g : Format, .argument id f ∈ g.preorder →
    ∃ c ∈ g.branches, ∃ place : Place, place.fill b.value = c.value
  | .simple _ _, h => nomatch h
  | .branching _ _ branches, h => Branch.exists_place hb branches h

theorem Branch.exists_place (hb : b ∈ f.branches) : ∀ branches : List Branch,
    .argument id f ∈ Branch.preorderAll branches →
      ∃ c ∈ branches, ∃ place : Place, place.fill b.value = c.value
  | [], h => nomatch h
  | ⟨selector, value⟩ :: rest, h => by
    rcases List.mem_append.mp h with hvalue | hrest
    · have hplace := Element.exists_place_mem hb value hvalue value (List.Subset.refl _)
      exact ⟨_, List.mem_cons_self, hplace⟩
    · obtain ⟨c, hc, hplace⟩ := Branch.exists_place hb rest hrest
      exact ⟨c, List.mem_cons_of_mem _ hc, hplace⟩

theorem Element.exists_place_mem (hb : b ∈ f.branches) : ∀ elements : List Element,
    .argument id f ∈ Element.preorderAll elements → ∀ message : Message, elements ⊆ message →
      ∃ place : Place, place.fill b.value = message
  | [], h, _, _ => nomatch h
  | e :: rest, h, message, hsub => by
    obtain ⟨he, hrest⟩ := List.cons_subset.mp hsub
    rcases List.mem_append.mp h with h | h
    · exact Element.exists_place hb e h message he
    · exact Element.exists_place_mem hb rest h message hrest

end

end

/-- Every option value of a message, at any depth, is in a place of it. -/
theorem exists_place_iff {message value : Message} :
    (∃ place : Place, place.fill value = message) ↔
      ∃ id f, .argument id f ∈ Element.preorderAll message ∧ ∃ b ∈ f.branches, b.value = value := by
  constructor
  · rintro ⟨place, rfl⟩
    exact place.argument_mem_preorder value
  · rintro ⟨id, f, hmem, b, hb, rfl⟩
    exact Element.exists_place_mem hb message hmem message (List.Subset.refl _)

/-! ## Texts around a place -/

namespace Syntax

/-- What stands before each branch. -/
def branchLead : Layout → List Char
  | .compact => []
  | .pretty => "\n   ".toList

/-- What stands after the last branch. -/
def branchTrail : Layout → List Char
  | .compact => []
  | .pretty => ['\n']

theorem branches_ne_nil (layout : Layout) {bs : List Branch} (h : bs ≠ []) :
    branches layout ((Branch.printAll bs).map Printed.text) =
      branchTexts (branchLead layout) bs ++ branchTrail layout := by
  obtain ⟨b, bs, rfl⟩ := List.exists_cons_of_ne_nil h
  cases layout with
  | compact => rw [branches_compact, branchTrail, List.append_nil, branchLead]
  | pretty => exact branches_pretty b bs

theorem branchTexts_append (lead : List Char) (as bs : List Branch) :
    branchTexts lead (as ++ bs) = branchTexts lead as ++ branchTexts lead bs := by
  simp only [branchTexts_eq_flatMap, Branch.printAll_eq_map, List.map_append, List.flatMap_append]

end Syntax

theorem Element.text_printAll_append (layout : Layout) (as bs : List Element) :
    (Element.printAll layout (as ++ bs)).text =
      (Element.printAll layout as).text ++ (Element.printAll layout bs).text := by
  induction as with
  | nil => rfl
  | cons a as ih => simp [Element.printAll, ih]

namespace Around

/-- What is printed before the value. -/
def opening (layout : Layout) (around : Around) : List Char :=
  (Element.printAll layout around.before).text ++
    ('{' :: Element.argumentHead around.id (around.format []) ++
      Syntax.branchTexts (Syntax.branchLead layout) around.earlier ++
      (Syntax.branchLead layout ++ around.selector.toList ++ [' ', '{']))

/-- What is printed after the value. -/
def closing (layout : Layout) (around : Around) : List Char :=
  '}' :: Syntax.branchTexts (Syntax.branchLead layout) around.later ++
    Syntax.branchTrail layout ++ '}' :: (Element.printAll layout around.after).text

theorem text_fill (layout : Layout) (around : Around) (value : Message) :
    (Element.printAll layout (around.fill value)).text =
      around.opening layout ++ (Element.printAll .compact value).text ++ around.closing layout := by
  have hbody : (around.format value).body layout =
      Syntax.branchTexts (Syntax.branchLead layout) around.earlier ++
        (Syntax.branchLead layout ++ Syntax.branch around.selector
          (Element.printAll .compact value).text ++
        Syntax.branchTexts (Syntax.branchLead layout) around.later) ++
        Syntax.branchTrail layout := by
    rw [format, Format.body, Syntax.branches_ne_nil layout (by simp), Syntax.branchTexts_append,
      Syntax.branchTexts]
  have hhead : Element.argumentHead around.id (around.format value) =
      Element.argumentHead around.id (around.format []) := rfl
  rw [fill, Element.text_printAll_append, Element.printAll, Printed.text_append,
    Element.text_print_eq_head_body, hbody, hhead, opening, closing, Syntax.branch]
  simp only [List.append_assoc, List.cons_append, List.nil_append]

end Around

/-- Strings before and after a place that whatever is put there stands between. -/
theorem Place.exists_text_fill (place : Place) (layout : Layout) : ∃ before after : List Char,
    ∀ value : Message, (Element.printAll layout (place.fill value)).text =
      before ++ (Element.printAll .compact value).text ++ after := by
  induction place generalizing layout with
  | option around => exact ⟨_, _, around.text_fill layout⟩
  | inside around place ih =>
    obtain ⟨before, after, hinner⟩ := ih .compact
    refine ⟨around.opening layout ++ before, after ++ around.closing layout, fun value => ?_⟩
    rw [Place.fill, Around.text_fill, hinner]
    simp only [List.append_assoc]

/-! ## Repeated nesting -/

/-- What is printed before the only option value of a select argument. -/
def Syntax.selectOpening (id : ArgumentId) (selector : String) : String :=
  "\x7b" ++ String.ofList id.text ++ ", select," ++ selector ++ " \x7b"

theorem Message.text_compact_nestOnce (id : ArgumentId) (selector : String) (m : Message) :
    Message.text .compact (Frame.nestOnce id selector m) =
      Syntax.selectOpening id selector ++ Message.text .compact m ++ "\x7d\x7d" := by
  apply String.toList_inj.mp
  simp [Message.text, Frame.nestOnce, Message.print, Element.printAll, Element.print,
    Branch.printAll, Syntax.branching, Syntax.branch, Syntax.branches, Syntax.offsetClause,
    ArgumentType.name, Syntax.selectOpening]

theorem Message.text_pretty_nestOnce (id : ArgumentId) (selector : String) (m : Message) :
    Message.text .pretty (Frame.nestOnce id selector m) =
      "\x7b" ++ String.ofList id.text ++ ", select,\n   " ++ selector ++ " \x7b" ++
        Message.text .compact m ++ "\x7d\n\x7d" := by
  apply String.toList_inj.mp
  simp [Message.text, Frame.nestOnce, Message.print, Element.printAll, Element.print,
    Branch.printAll, Syntax.branching, Syntax.branch, Syntax.branches, Syntax.offsetClause,
    ArgumentType.name]

/-- Nesting goes on inside out; the outermost argument is the same as all others. -/
theorem Frame.nest_succ (id : ArgumentId) (selector : String) (n : Nat) (m : Message) :
    Frame.nest id selector (n + 1) m = Frame.nestOnce id selector (Frame.nest id selector n m) := by
  induction n generalizing m with
  | zero => rfl
  | succ n ih => exact ih (Frame.nestOnce id selector m)

theorem Message.text_compact_nest (id : ArgumentId) (selector : String) (n : Nat) (m : Message) :
    Message.text .compact (Frame.nest id selector n m) =
      String.join (List.replicate n (Syntax.selectOpening id selector)) ++
        Message.text .compact m ++ String.join (List.replicate n "\x7d\x7d") := by
  induction n with
  | zero => simp [Frame.nest]
  | succ n ih =>
    rw [Frame.nest_succ, Message.text_compact_nestOnce, ih, List.replicate_succ, String.join_cons,
      List.replicate_succ', String.join_append]
    simp only [String.join_cons, String.join_nil, String.append_empty, String.append_assoc]

/-- **Printing is compositional in option values.** The value of an option, at any depth of a
message, is in a place of it; what is printed of a message around a place does not depend on the
value there, and the value itself is printed compactly in either layout. So an argument around an
argument around a message prints as the openings, the message and the closings; in the pretty layout
only the outermost argument is laid out in lines. -/
theorem Message.text_compositional :
    (∀ message value : Message, (∃ place : Place, place.fill value = message) ↔
      ∃ id f, .argument id f ∈ Element.preorderAll message ∧ ∃ b ∈ f.branches, b.value = value) ∧
    (∀ (place : Place) (layout : Layout), ∃ before after : String, ∀ value : Message,
      Message.text layout (place.fill value) = before ++ Message.text .compact value ++ after) ∧
    ∀ (id : ArgumentId) (selector : String) (n : Nat) (m : Message),
      Message.text .compact (Frame.nest id selector n m) =
        String.join (List.replicate n (Syntax.selectOpening id selector)) ++
          Message.text .compact m ++ String.join (List.replicate n "\x7d\x7d") ∧
      Message.text .pretty (Frame.nest id selector (n + 1) m) =
        "\x7b" ++ String.ofList id.text ++ ", select,\n   " ++ selector ++ " \x7b" ++
          Message.text .compact (Frame.nest id selector n m) ++ "\x7d\n\x7d" := by
  refine ⟨fun _ _ => exists_place_iff, fun place layout => ?_, fun id selector n m => ⟨?_, ?_⟩⟩
  · obtain ⟨before, after, hfill⟩ := place.exists_text_fill layout
    refine ⟨String.ofList before, String.ofList after, fun value => ?_⟩
    rw [Message.text, Message.print, hfill, String.ofList_append, String.ofList_append]
    rfl
  · exact Message.text_compact_nest id selector n m
  · rw [Frame.nest_succ, Message.text_pretty_nestOnce]

end IcuMessage
