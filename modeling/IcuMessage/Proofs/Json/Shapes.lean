/-
The two shapes of a node: an object of its members, rearranged at will, or the
array of their values in the order of its fields, where what is absent anyway
may be left out at the end. A record and a tagged node decode every shape of
their members alike (`Decoder.record_shape`, `Decoder.tagged_shape`). An array
that goes on after the last field is no shape of anything.
-/
import Mathlib.Data.List.Nodup
import Mathlib.Order.MinMax
import IcuMessage.Proofs.Json.MemberOrder
import IcuMessage.Proofs.Json.Parts

namespace IcuMessage.Json

variable {σ α : Type}

/-! ## Shapes -/

section

variable (foreign : Bool) (absent : List (String × Value))

/-- The ways to write a node that has the members `full`. Whether an object may have members of
other names as well, is for `foreign` to say. -/
inductive Shape (full : List (String × Value)) : Value → Prop
  | object {ms : List (String × Value)} (hr : Rearranges absent full ms)
      (hf : foreign = true ∨ ms ⊆ full) : Shape full (.object ms)
  | items {given omitted : List (String × Value)} (h : given ++ omitted = full)
      (ho : ∀ m ∈ omitted, m ∈ absent) : Shape full (.array (given.map (·.2)))

mutual

/-- The second value is the first with each of its objects in some shape, at every depth. -/
inductive Value.Reshaped : Value → Value → Prop
  | scalar {v : Value} (h : v.depth = 0) : Value.Reshaped v v
  | array {items items' : List Value} (h : Value.ReshapedItems items items') :
      Value.Reshaped (.array items) (.array items')
  | node {ms full : List (String × Value)} {w : Value} (h : Value.ReshapedMembers ms full)
      (hw : Shape foreign absent full w) : Value.Reshaped (.object ms) w

inductive Value.ReshapedItems : List Value → List Value → Prop
  | nil : Value.ReshapedItems [] []
  | cons {v w : Value} {vs ws : List Value} (h : Value.Reshaped v w)
      (hs : Value.ReshapedItems vs ws) : Value.ReshapedItems (v :: vs) (w :: ws)

inductive Value.ReshapedMembers : List (String × Value) → List (String × Value) → Prop
  | nil : Value.ReshapedMembers [] []
  | cons {key : String} {v w : Value} {ms full : List (String × Value)} (h : Value.Reshaped v w)
      (hs : Value.ReshapedMembers ms full) :
      Value.ReshapedMembers ((key, v) :: ms) ((key, w) :: full)

end

end

variable {foreign : Bool} {absent full ms : List (String × Value)}

theorem Shape.all_members : Shape foreign absent full (.object full) :=
  .object ⟨[], [], by simp, nofun, nofun⟩ (.inr (List.Subset.refl _))

theorem Shape.all_items : Shape foreign absent full (.array (full.map (·.2))) :=
  .items (List.append_nil _) nofun

theorem Value.Reshaped.eq_of_scalar {v w : Value} (h : v.Reshaped foreign absent w)
    (hd : v.depth = 0) : w = v := by
  cases h with
  | scalar => rfl
  | array | node => simp [Value.depth] at hd

theorem Value.Reshaped.array_ok {items : List Value} {w : Value}
    (h : (Value.array items).Reshaped foreign absent w) :
    ∃ items', w = .array items' ∧ Value.ReshapedItems foreign absent items items' := by
  cases h with
  | scalar h => simp [Value.depth] at h
  | array h => exact ⟨_, rfl, h⟩

theorem Value.Reshaped.node_ok {w : Value} (h : (Value.object ms).Reshaped foreign absent w) :
    ∃ full, Value.ReshapedMembers foreign absent ms full ∧ Shape foreign absent full w := by
  cases h with
  | scalar h => simp [Value.depth] at h
  | node h hw => exact ⟨_, h, hw⟩

theorem Value.ReshapedMembers.names (h : Value.ReshapedMembers foreign absent ms full) :
    full.map (·.1) = ms.map (·.1) := by
  induction ms generalizing full with
  | nil =>
    cases h
    rfl
  | cons m ms ih =>
    cases h with
    | cons _ hs => rw [List.map_cons, List.map_cons, ih hs]

mutual

/-- Members may be rearranged where all nodes stay objects. -/
theorem Value.Rearranged.reshaped : ∀ {v w : Value}, v.Rearranged absent w →
    v.Reshaped true absent w
  | _, _, .scalar h => .scalar h
  | _, _, .array h => .array h.reshaped
  | _, _, .object h hr => .node h.reshaped (.object hr (.inl rfl))

theorem Value.RearrangedItems.reshaped : ∀ {vs ws : List Value},
    Value.RearrangedItems absent vs ws → Value.ReshapedItems true absent vs ws
  | _, _, .nil => .nil
  | _, _, .cons h hs => .cons h.reshaped hs.reshaped

theorem Value.RearrangedMembers.reshaped : ∀ {ms full : List (String × Value)},
    Value.RearrangedMembers absent ms full → Value.ReshapedMembers true absent ms full
  | _, _, .nil => .nil
  | _, _, .cons h hs => .cons h.reshaped hs.reshaped

end

/-! ### Depth -/

theorem Shape.depth_le {w : Value} (h : Shape false absent full w) :
    w.depth ≤ Value.depthMembers full + 1 := by
  cases h with
  | @object ms _ hf =>
    have hsub : ms ⊆ full := hf.resolve_left Bool.false_ne_true
    exact Nat.succ_le_succ (depthMembers_le_of_subset fun _ hm => hsub hm)
  | @items given omitted h ho =>
    refine Nat.succ_le_succ (Value.depthItems_le fun v hv => ?_)
    obtain ⟨m, hm, rfl⟩ := List.mem_map.mp hv
    exact Value.depth_le_depthMembers (h ▸ List.mem_append_left omitted hm)

mutual

/-- Without foreign members no shape is nested deeper than the value. -/
theorem Value.Reshaped.depth_le : ∀ {v w : Value}, v.Reshaped false absent w → w.depth ≤ v.depth
  | _, _, .scalar _ => Nat.le_refl _
  | _, _, .array h => Nat.succ_le_succ h.depth_le
  | _, _, .node h hw => Nat.le_trans hw.depth_le (Nat.succ_le_succ h.depth_le)

theorem Value.ReshapedItems.depth_le : ∀ {vs ws : List Value},
    Value.ReshapedItems false absent vs ws → Value.depthItems ws ≤ Value.depthItems vs
  | _, _, .nil => Nat.le_refl _
  | _, _, .cons h hs => max_le_max h.depth_le hs.depth_le

theorem Value.ReshapedMembers.depth_le : ∀ {ms full : List (String × Value)},
    Value.ReshapedMembers false absent ms full → Value.depthMembers full ≤ Value.depthMembers ms
  | _, _, .nil => Nat.le_refl _
  | _, _, .cons h hs => max_le_max h.depth_le hs.depth_le

end

/-! ## Parts -/

/-- In either shape, a part that is not absent is where it belongs. -/
theorem Shape.part? {w : Value} (h : Shape foreign absent full w) {name : String} {v : Value}
    {index : Nat} (hi : full[index]? = some (name, v)) (hu : ∀ m ∈ full, m.1 = name → m.2 = v)
    (ha : (name, v) ∉ absent) : w.part? name index = some v := by
  cases h with
  | object hr => exact hr.lookup (List.mem_of_getElem? hi) hu ha
  | @items given omitted h ho =>
    subst h
    rcases Nat.lt_or_ge index given.length with hlt | hge
    · rw [List.getElem?_append_left hlt] at hi
      simp [Value.part?, hi]
    · rw [List.getElem?_append_right hge] at hi
      exact absurd (ho _ (List.mem_of_getElem? hi)) ha

theorem Shape.tag? {w tag : Value} (h : Shape foreign absent ((tagName, tag) :: ms) w)
    (hms : ∀ m ∈ ms, m.1 ≠ tagName) (ha : (tagName, tag) ∉ absent) : w.tag? = some tag := by
  have hpart : w.part? tagName 0 = some tag :=
    h.part? rfl (List.forall_mem_cons.mpr ⟨fun _ => rfl, fun m hm hk => absurd hk (hms m hm)⟩) ha
  cases h with
  | object => exact hpart
  | @items given omitted h ho =>
    cases given with
    | nil => nomatch hpart
    | cons m given => exact hpart

theorem Value.ReshapedMembers.getElem? (h : Value.ReshapedMembers foreign absent ms full)
    {index : Nat} {name : String} {x : Value} (hi : ms[index]? = some (name, x)) :
    ∃ w, full[index]? = some (name, w) ∧ x.Reshaped foreign absent w := by
  induction ms generalizing full index with
  | nil => simp at hi
  | cons m ms ih =>
    obtain _ | ⟨h, hs⟩ := h
    cases index with
    | zero =>
      obtain ⟨rfl, rfl⟩ := Prod.mk.inj (Option.some.inj hi)
      exact ⟨_, rfl, h⟩
    | succ index => exact ih hs hi

theorem Value.ReshapedItems.exists_mem {before after items : List Value} {x : Value}
    (h : Value.ReshapedItems foreign absent (before ++ x :: after) items) :
    ∃ w ∈ items, x.Reshaped foreign absent w := by
  induction before generalizing items with
  | nil =>
    obtain _ | ⟨h, -⟩ := h
    exact ⟨_, List.mem_cons_self, h⟩
  | cons v before ih =>
    obtain _ | ⟨-, hs⟩ := h
    obtain ⟨w, hw, hx⟩ := ih hs
    exact ⟨w, List.mem_cons_of_mem _ hw, hx⟩

/-- In any shape of a node, each of its members that is not absent is where it belongs. -/
theorem Value.Reshaped.part? {v : Value} (h : (Value.object ms).Reshaped foreign absent v)
    (hn : (ms.map (·.1)).Nodup) {index : Nat} {name : String} {x : Value}
    (hi : ms[index]? = some (name, x))
    (ha : ∀ w, x.Reshaped foreign absent w → (name, w) ∉ absent) :
    ∃ w, x.Reshaped foreign absent w ∧ v.part? name index = some w := by
  obtain ⟨full, hf, hw⟩ := h.node_ok
  obtain ⟨w, hi, hx⟩ := hf.getElem? hi
  refine ⟨w, hx, hw.part? hi (fun m hm hname => ?_) (ha w hx)⟩
  have hsame := List.inj_on_of_nodup_map (hf.names ▸ hn) hm (List.mem_of_getElem? hi) hname
  rw [hsame]

theorem Value.Reshaped.tag? {v : Value} {name : String}
    (h : (Value.object ((tagName, .string name) :: ms)).Reshaped foreign absent v)
    (hms : ∀ m ∈ ms, m.1 ≠ tagName) (ha : (tagName, .string name) ∉ absent) :
    v.tag? = some (.string name) := by
  obtain ⟨full, hf, hw⟩ := h.node_ok
  obtain _ | ⟨htag, hrest⟩ := hf
  obtain rfl := htag.eq_of_scalar rfl
  refine hw.tag? (fun m hm hk => ?_) ha
  have hname : tagName ∈ ms.map (·.1) := by
    rw [← hrest.names, ← hk]
    exact List.mem_map_of_mem hm
  obtain ⟨m', hm', hk'⟩ := List.mem_map.mp hname
  exact hms m' hm' hk'

theorem Rearranges.eq_singleton {m : String × Value} (h : Rearranges absent [m] ms)
    (hs : ms ⊆ [m]) (ha : m ∉ absent) : ms = [m] := by
  have hmem : m ∈ ms := h.mem List.mem_cons_self ha
  have hname : ∀ m' ∈ ms, (m'.1 == m.1) = true := fun m' hm' => by
    rw [List.mem_singleton.mp (hs hm'), beq_self_eq_true]
  obtain ⟨omitted, extra, hp, -, he⟩ := h
  have hextra : extra.filter (·.1 == m.1) = [] :=
    List.filter_eq_nil_iff.mpr fun m' hm' => by simpa using he m' hm'
  have hlength := (hp.filter (·.1 == m.1)).length_eq
  rw [List.filter_append, List.filter_append, List.filter_eq_self.mpr hname, hextra,
    List.length_append] at hlength
  have hpos := List.length_pos_of_mem hmem
  have hone : ms.length = 1 := by simp at hlength; omega
  obtain ⟨m', rfl⟩ := List.length_eq_one_iff.mp hone
  rw [List.mem_singleton.mp hmem]

/-- A node with one member, which has to be there, has just its two usual shapes. -/
theorem Shape.of_singleton {w : Value} {m : String × Value} (h : Shape false absent [m] w)
    (ha : m ∉ absent) : w = .object [m] ∨ w = .array [m.2] := by
  cases h with
  | object hr hf =>
    exact .inl (congrArg _ (hr.eq_singleton (hf.resolve_left Bool.false_ne_true) ha))
  | @items given omitted h ho =>
    cases given with
    | nil =>
      obtain rfl : omitted = [m] := h
      exact absurd (ho m List.mem_cons_self) ha
    | cons first given =>
      obtain ⟨rfl, hrest⟩ := List.cons.inj h
      obtain ⟨rfl, -⟩ := List.append_eq_nil_iff.mp hrest
      exact .inr rfl

/-! ## Records -/

/-- The record finds its fields in any shape. -/
structure Record.Shaped (absent : List (String × Value)) (r : Record Decoder σ α) : Prop
    extends r.Unordered absent where
  nodup : (r.fields.map (·.name)).Nodup
  finish : ∀ missing missing' state a, r.finish missing state = .ok a →
    r.finish missing' state = .ok a

theorem Record.field?_of_mem {r : Record Decoder σ α} (hn : (r.fields.map (·.name)).Nodup)
    {field : Field Decoder σ} (hf : field ∈ r.fields) : r.field? field.name = some field := by
  cases h : r.field? field.name with
  | none => simpa using List.find?_eq_none.mp h field hf
  | some found =>
    obtain ⟨hmem, hname⟩ := Record.field?_eq_some h
    rw [List.inj_on_of_nodup_map hn hmem hf hname]

namespace Decoder

/-- Members that come in the order of the fields are stored as the items of an array are. -/
theorem storeItems_of_members {r : Record Decoder σ α} (hn : (r.fields.map (·.name)).Nodup)
    {fields : List (Field Decoder σ)} (hf : fields ⊆ r.fields)
    (hnames : ms.map (·.1) <+: fields.map (·.name)) {s s' : List String × σ}
    (h : ms.foldlM (member r) s = .ok s') : storeItems fields (ms.map (·.2)) s.2 = .ok s'.2 := by
  induction ms generalizing fields s with
  | nil =>
    obtain rfl := Except.ok.inj h
    cases fields <;> rfl
  | cons m ms ih =>
    cases fields with
    | nil => simp at hnames
    | cons field fields =>
      obtain ⟨hname, hnames⟩ := List.cons_prefix_cons.mp hnames
      obtain ⟨hfield, hf⟩ := List.cons_subset.mp hf
      have hsome : r.field? m.1 = some field := by
        rw [show m.1 = field.name from hname]
        exact Record.field?_of_mem hn hfield
      rw [List.foldlM_cons] at h
      obtain ⟨t, hm, h⟩ := bind_ok_iff.mp h
      obtain ⟨hnone, -⟩ | ⟨_, store, hsome', -, hstore, rfl⟩ := member_ok_iff.mp hm
      · simp [hsome] at hnone
      · obtain rfl := Option.some.inj (hsome.symm.trans hsome')
        rw [List.map_cons, storeItems, hstore, ok_bind]
        exact ih hf hnames h

/-- What a record decodes from all its members it decodes from any shape of them. -/
theorem record_shape {r : Record Decoder σ α} (hr : r.Shaped absent)
    (hn : full.map (·.1) = r.fields.map (·.name)) {w : Value} (hw : Shape foreign absent full w)
    {a : α} (ha : record r (.object full) = .ok a) : record r w = .ok a := by
  cases hw with
  | object h => exact record_rearranged hr.toUnordered hn h ha
  | @items given omitted h ho =>
    subst h
    have hgiven : record r (.object given) = .ok a :=
      record_rearranged hr.toUnordered hn ⟨omitted, [], by simpa using List.perm_append_comm, ho,
        nofun⟩ ha
    obtain ⟨s, hs, hfinish⟩ := bind_ok_iff.mp (show ofMembers r given = .ok a from hgiven)
    have hprefix : given.map (·.1) <+: r.fields.map (·.name) := by
      rw [← hn, List.map_append]
      exact List.prefix_append _ _
    have hlength : ¬r.fields.length < (given.map (·.2)).length := by
      have := hprefix.length_le
      simp only [List.length_map] at this ⊢
      omega
    show ofItems r (given.map (·.2)) = .ok a
    rw [ofItems, storeItems_of_members hr.nodup (List.Subset.refl _) hprefix hs, ok_bind,
      hr.finish _ r.missingItem _ _ hfinish, ok_bind, if_neg hlength]

theorem tagged_shape {t : Tagged α} {r : Record Decoder σ α} {name : String}
    (hname : t.named name = .ok (record r)) (hr : r.Shaped absent)
    (habsent : ∀ m ∈ absent, m.1 ≠ tagName) (hfull : tagName ∉ full.map (·.1))
    (hn : full.map (·.1) = r.fields.map (·.name)) {w : Value}
    (hw : Shape foreign absent ((tagName, .string name) :: full) w) {a : α}
    (ha : tagged t (.object ((tagName, .string name) :: full)) = .ok a) : tagged t w = .ok a := by
  cases hw with
  | object h => exact tagged_rearranged hname hr.toUnordered habsent hfull hn h ha
  | @items given omitted h ho =>
    rw [tagged_tagFirst fun m hm ht => hfull (ht ▸ List.mem_map_of_mem hm), hname, ok_bind] at ha
    cases given with
    | nil =>
      obtain rfl : omitted = _ := h
      exact absurd rfl (habsent _ (ho _ List.mem_cons_self))
    | cons tag given =>
      obtain ⟨rfl, hgiven⟩ : tag = _ ∧ given ++ omitted = full := List.cons.inj h
      show (t.named name >>= fun variant => variant (.array (given.map (·.2)))) = .ok a
      rw [hname, ok_bind]
      have hitems : Shape foreign absent full (.array (given.map (·.2))) := .items hgiven ho
      exact record_shape hr hn hitems ha

end Decoder

end IcuMessage.Json
