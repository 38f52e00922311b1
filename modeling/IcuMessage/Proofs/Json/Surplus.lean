/-
Values with a surplus: one node in them stands as the array of all its fields'
values with further items after them, everything else is in some shape. A node
that is read can not have the surplus itself (`Decoder.record_overfull`,
`Decoder.tagged_overfull`), so it is further down, in one of its parts.
-/
import IcuMessage.Proofs.Json.Shapes

namespace IcuMessage.Json

variable {σ α : Type}

/-! ## Surplus items -/

section

variable (foreign : Bool) (absent : List (String × Value))

mutual

/-- The second value is the first with its objects in some shape, but for one that stands as the
array of its members' values with further items after them. -/
inductive Value.Overfull : Value → Value → Prop
  | surplus {ms full : List (String × Value)} (h : Value.ReshapedMembers foreign absent ms full)
      (x : Value) (xs : List Value) :
      Value.Overfull (.object ms) (.array (full.map (·.2) ++ x :: xs))
  | array {items items' : List Value} (h : Value.OverfullItems items items') :
      Value.Overfull (.array items) (.array items')
  | node {ms full : List (String × Value)} {w : Value} (h : Value.OverfullMembers ms full)
      (hw : Shape foreign absent full w) : Value.Overfull (.object ms) w

inductive Value.OverfullItems : List Value → List Value → Prop
  | here {v w : Value} {vs ws : List Value} (h : Value.Overfull v w)
      (hs : Value.ReshapedItems foreign absent vs ws) : Value.OverfullItems (v :: vs) (w :: ws)
  | there {v w : Value} {vs ws : List Value} (h : Value.Reshaped foreign absent v w)
      (hs : Value.OverfullItems vs ws) : Value.OverfullItems (v :: vs) (w :: ws)

inductive Value.OverfullMembers : List (String × Value) → List (String × Value) → Prop
  | here {key : String} {v w : Value} {ms full : List (String × Value)} (h : Value.Overfull v w)
      (hs : Value.ReshapedMembers foreign absent ms full) :
      Value.OverfullMembers ((key, v) :: ms) ((key, w) :: full)
  | there {key : String} {v w : Value} {ms full : List (String × Value)}
      (h : Value.Reshaped foreign absent v w) (hs : Value.OverfullMembers ms full) :
      Value.OverfullMembers ((key, v) :: ms) ((key, w) :: full)

end

end

variable {foreign : Bool} {absent scalars : List (String × Value)} {key : String} {v w x : Value}

theorem Value.Overfull.not_scalar (h : v.Overfull foreign absent w) : v.depth ≠ 0 := by
  cases h <;> simp [Value.depth]

theorem Value.Overfull.ne_null (h : v.Overfull foreign absent w) : w ≠ .null := by
  cases h with
  | surplus | array => simp
  | node h hw => cases hw <;> simp

theorem Value.Overfull.array_ok {items : List Value}
    (h : (Value.array items).Overfull foreign absent w) :
    ∃ items', w = .array items' ∧ Value.OverfullItems foreign absent items items' := by
  cases h with
  | array h => exact ⟨_, rfl, h⟩

/-- Only the last member of a written node has nodes in it. -/
theorem Value.OverfullMembers.last (hs : ∀ m ∈ scalars, m.2.depth = 0)
    {full : List (String × Value)}
    (h : Value.OverfullMembers foreign absent (scalars ++ [(key, x)]) full) :
    ∃ y, x.Overfull foreign absent y ∧ full = scalars ++ [(key, y)] := by
  induction scalars generalizing full with
  | nil =>
    cases h with
    | here h hs =>
      cases hs
      exact ⟨_, h, rfl⟩
    | there _ hs => nomatch hs
  | cons m scalars ih =>
    obtain ⟨hm, hscalars⟩ := List.forall_mem_cons.mp hs
    cases h with
    | here h _ => exact absurd hm h.not_scalar
    | there h hrest =>
      obtain rfl := h.eq_of_scalar hm
      obtain ⟨y, hy, rfl⟩ := ih hscalars hrest
      exact ⟨y, hy, rfl⟩

/-! ## Nodes -/

namespace Decoder

/-- An array does not go on after the last field. -/
theorem surplus_ne_ok {r : Record Decoder σ α} {ms full : List (String × Value)}
    (hl : ms.length = r.fields.length) (h : Value.ReshapedMembers foreign absent ms full)
    (z : Value) (zs : List Value) (a : α) :
    record r (.array (full.map (·.2) ++ z :: zs)) ≠ .ok a := by
  intro ha
  obtain ⟨state, -, ha⟩ := bind_ok_iff.mp (show ofItems r _ = .ok a from ha)
  obtain ⟨b, -, ha⟩ := bind_ok_iff.mp ha
  have hnames : full.length = ms.length := by simpa using congrArg List.length h.names
  rw [if_pos (by simp only [List.length_append, List.length_map, List.length_cons]; omega)] at ha
  nomatch ha

theorem record_overfull (scalars : List (String × Value)) {r : Record Decoder σ α}
    (hs : ∀ m ∈ scalars, m.2.depth = 0)
    (hl : (scalars ++ [(key, x)]).length = r.fields.length)
    (h : (Value.object (scalars ++ [(key, x)])).Overfull foreign absent w) {a : α}
    (ha : record r w = .ok a) :
    ∃ y, x.Overfull foreign absent y ∧ Shape foreign absent (scalars ++ [(key, y)]) w := by
  cases h with
  | surplus h z zs => exact absurd ha (surplus_ne_ok hl h z zs a)
  | node h hw =>
    obtain ⟨y, hy, rfl⟩ := h.last hs
    exact ⟨y, hy, hw⟩

theorem tagged_overfull (scalars : List (String × Value)) {t : Tagged α} {r : Record Decoder σ α}
    {name : String}
    (hname : t.named name = .ok (record r)) (hs : ∀ m ∈ scalars, m.2.depth = 0)
    (hl : (scalars ++ [(key, x)]).length = r.fields.length)
    (h : (Value.object ((tagName, .string name) :: (scalars ++ [(key, x)]))).Overfull
      foreign absent w) {a : α} (ha : tagged t w = .ok a) :
    ∃ y, x.Overfull foreign absent y ∧
      Shape foreign absent ((tagName, .string name) :: (scalars ++ [(key, y)])) w := by
  cases h with
  | surplus h z zs =>
    obtain _ | ⟨htag, h⟩ := h
    obtain rfl := htag.eq_of_scalar rfl
    rw [List.map_cons, List.cons_append, tagged, Tagged.ofTag, hname, ok_bind] at ha
    exact absurd ha (surplus_ne_ok hl h z zs a)
  | node h hw =>
    have htagged : ∀ m ∈ (tagName, Value.string name) :: scalars, m.2.depth = 0 :=
      List.forall_mem_cons.mpr ⟨rfl, hs⟩
    obtain ⟨y, hy, rfl⟩ := Value.OverfullMembers.last htagged h
    exact ⟨y, hy, hw⟩

end Decoder

end IcuMessage.Json
