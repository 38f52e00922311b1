/-
Values with a hole. A context is what surrounds a part of a value, from the
outermost container inwards, and its text is what stands before and after that
part. Around a text of a part it makes up a text of the whole
(`Context.Text.fill`), and around a text that no value is read from one that none
is read from either (`Context.Text.unreadable`).
-/
import IcuMessage.Proofs.Json.Unreadable

namespace IcuMessage.Json

/-- Everything of a value but one of its parts, at any depth. -/
inductive Context where
  | hole
  | item (before : List Value) (inner : Context) (after : List Value)
  | member (before : List (String × Value)) (key : String) (inner : Context)
      (after : List (String × Value))

namespace Context

/-- The value with this part in the hole. -/
def fill : Context → Value → Value
  | hole, v => v
  | item before inner after, v => .array (before ++ inner.fill v :: after)
  | member before key inner after, v => .object (before ++ (key, inner.fill v) :: after)

/-- What stands in a text of the value before the hole and after it. -/
inductive Text : Context → List Char → List Char → Prop
  | hole : Text .hole [] []
  | between {c : Context} {lead trail before after : List Char} (hb : Blank before)
      (ha : Blank after) (h : Text c lead trail) : Text c (before ++ lead) (trail ++ after)
  | item {before after : List Value} {c : Context} {blanks lead trail : List Char}
      {earlier later : List (List Char)} (hb : Blank blanks)
      (hearlier : Value.ItemTexts before earlier) (h : Text c lead trail)
      (hlater : Value.ItemTexts after later) :
      Text (.item before c after) ('[' :: blanks ++ earlier.flatMap (· ++ [',']) ++ lead)
        (trail ++ commaBefore later ++ [']'])
  | member {before after : List (String × Value)} {key : String} {c : Context}
      {blanks name lead trail : List Char} {earlier later : List (List Char)} (hb : Blank blanks)
      (hearlier : Value.MemberTexts before earlier)
      (hk : ∀ value, IsMember (name ++ value) key value) (h : Text c lead trail)
      (hlater : Value.MemberTexts after later) :
      Text (.member before key c after)
        ('{' :: blanks ++ earlier.flatMap (· ++ [',']) ++ name ++ lead)
        (trail ++ commaBefore later ++ ['}'])

end Context

/-! ## Texts in the middle of a list -/

theorem commaSeparated_append_cons (earlier : List (List Char)) (text : List Char)
    (later : List (List Char)) : commaSeparated (earlier ++ text :: later) =
      earlier.flatMap (· ++ [',']) ++ text ++ commaBefore later := by
  induction earlier with
  | nil => simp [commaSeparated_cons]
  | cons t earlier ih =>
    obtain ⟨first, rest, hcons⟩ : ∃ first rest, earlier ++ text :: later = first :: rest :=
      List.exists_cons_of_ne_nil (by simp)
    rw [List.cons_append, hcons, commaSeparated_cons_cons, ← hcons, ih]
    simp

theorem Value.ItemTexts.append {before after : List Value} {earlier later : List (List Char)}
    (h : Value.ItemTexts before earlier) (hs : Value.ItemTexts after later) :
    Value.ItemTexts (before ++ after) (earlier ++ later) := by
  induction before generalizing earlier with
  | nil =>
    cases h
    exact hs
  | cons v before ih =>
    cases h with
    | cons h hrest => exact .cons h (ih hrest)

theorem Value.MemberTexts.append {before after : List (String × Value)}
    {earlier later : List (List Char)} (h : Value.MemberTexts before earlier)
    (hs : Value.MemberTexts after later) :
    Value.MemberTexts (before ++ after) (earlier ++ later) := by
  induction before generalizing earlier with
  | nil =>
    cases h
    exact hs
  | cons m before ih =>
    cases h with
    | cons hm h hrest => exact .cons hm h (ih hrest)

theorem Value.ItemTexts.exists_text {items : List Value} {texts : List (List Char)}
    (h : Value.ItemTexts items texts) : ∀ text ∈ texts, ∃ v : Value, v.Text text := by
  induction items generalizing texts with
  | nil =>
    cases h
    exact List.forall_mem_nil _
  | cons v items ih =>
    cases h with
    | cons h hrest => exact List.forall_mem_cons.mpr ⟨⟨v, h⟩, ih hrest⟩

/-- The values that stand in the texts of members. -/
theorem Value.MemberTexts.exists_values {ms : List (String × Value)} {texts : List (List Char)}
    (h : Value.MemberTexts ms texts) : ∃ values,
      List.Forall₂ (fun text value => ∃ key, IsMember text key value) texts values ∧
        ∀ value ∈ values, ∃ v : Value, v.Text value := by
  induction ms generalizing texts with
  | nil =>
    cases h
    exact ⟨[], .nil, List.forall_mem_nil _⟩
  | cons m ms ih =>
    cases h with
    | cons hm h hrest =>
      obtain ⟨values, hvalues, htexts⟩ := ih hrest
      exact ⟨_ :: values, .cons ⟨_, hm⟩ hvalues, List.forall_mem_cons.mpr ⟨⟨_, h⟩, htexts⟩⟩

/-! ## Filling the hole -/

namespace Context

theorem item_text (blanks lead text trail : List Char) (earlier later : List (List Char)) :
    '[' :: blanks ++ earlier.flatMap (· ++ [',']) ++ lead ++ text ++
        (trail ++ commaBefore later ++ [']']) =
      '[' :: blanks ++ commaSeparated (earlier ++ (lead ++ text ++ trail) :: later) ++ [']'] := by
  rw [commaSeparated_append_cons]
  simp

theorem member_text (blanks name lead text trail : List Char) (earlier later : List (List Char)) :
    '{' :: blanks ++ earlier.flatMap (· ++ [',']) ++ name ++ lead ++ text ++
        (trail ++ commaBefore later ++ ['}']) =
      '{' :: blanks ++ commaSeparated (earlier ++ (name ++ (lead ++ text ++ trail)) :: later) ++
        ['}'] := by
  rw [commaSeparated_append_cons]
  simp

theorem Text.fill {c : Context} {lead trail : List Char} (h : c.Text lead trail) {v : Value}
    {text : List Char} (hv : v.Text text) : (c.fill v).Text (lead ++ text ++ trail) := by
  induction h with
  | hole => simpa [Context.fill] using hv
  | between hb ha _ ih => simpa using ih.between hb ha
  | item hb hearlier _ hlater ih =>
    rw [item_text]
    exact .array hb (hearlier.append (.cons ih hlater))
  | member hb hearlier hk _ hlater ih =>
    rw [member_text]
    exact .object hb (hearlier.append (.cons (hk _) ih hlater))

theorem Text.unreadable {c : Context} {lead trail : List Char} (h : c.Text lead trail)
    {text : List Char} (hu : Unreadable text) : Unreadable (lead ++ text ++ trail) := by
  induction h with
  | hole => simpa using hu
  | between hb ha _ ih => simpa using ih.between hb ha
  | item hb hearlier _ hlater ih =>
    rw [item_text]
    refine unreadable_array hb ?_ ⟨_, List.mem_append_right _ List.mem_cons_self, ih⟩
    refine List.forall_mem_append.mpr ⟨fun t ht => .inl (hearlier.exists_text t ht), ?_⟩
    exact List.forall_mem_cons.mpr ⟨.inr ih, fun t ht => .inl (hlater.exists_text t ht)⟩
  | member hb hearlier hk _ hlater ih =>
    rw [member_text]
    obtain ⟨values, hvalues, htexts⟩ := hearlier.exists_values
    obtain ⟨values', hvalues', htexts'⟩ := hlater.exists_values
    refine unreadable_object hb (List.rel_append hvalues (.cons ⟨_, hk _⟩ hvalues')) ?_
      ⟨_, List.mem_append_right _ List.mem_cons_self, ih⟩
    refine List.forall_mem_append.mpr ⟨fun t ht => .inl (htexts t ht), ?_⟩
    exact List.forall_mem_cons.mpr ⟨.inr ih, fun t ht => .inl (htexts' t ht)⟩

/-! ## Depth -/

theorem depthItems_congr (before after : List Value) {v w : Value} (h : v.depth = w.depth) :
    Value.depthItems (before ++ v :: after) = Value.depthItems (before ++ w :: after) := by
  induction before with
  | nil => simp [Value.depthItems, h]
  | cons x before ih => simp [Value.depthItems, ih]

theorem depthMembers_congr (before after : List (String × Value)) (key : String) {v w : Value}
    (h : v.depth = w.depth) : Value.depthMembers (before ++ (key, v) :: after) =
      Value.depthMembers (before ++ (key, w) :: after) := by
  induction before with
  | nil => simp [Value.depthMembers, h]
  | cons m before ih => simp [Value.depthMembers, ih]

/-- How deep the value is nested does not depend on which scalar is in the hole. -/
theorem depth_fill (c : Context) {v w : Value} (h : v.depth = w.depth) :
    (c.fill v).depth = (c.fill w).depth := by
  induction c with
  | hole => exact h
  | item before inner after ih => simp [fill, Value.depth, depthItems_congr before after ih]
  | member before key inner after ih =>
    simp [fill, Value.depth, depthMembers_congr before after key ih]

end Context

end IcuMessage.Json
