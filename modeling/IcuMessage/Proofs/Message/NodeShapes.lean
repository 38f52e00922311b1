/-
The nodes of a message in whatever shape they are written: as objects or as
arrays, what is absent left out or null. Each node decodes all shapes of its
members alike (`Node.reshaped_message` and the like), and so does the tree
(`Message.decode_reshaped`).
-/
import IcuMessage.Proofs.Json.Shapes
import IcuMessage.Proofs.Message.Wrapping

namespace IcuMessage

open Json

namespace Node

/-- The members that say no more than their absence. -/
def absent : List (String × Value) :=
  [("format", .null), ("style", .null), ("offset", .null), ("ordinal", .bool false)]

theorem tagName_not_absent : ∀ m ∈ absent, m.1 ≠ tagName := by
  simp only [absent, List.forall_mem_cons]
  decide

/-! ## Records -/

theorem required_of_required {α : Type} {missing missing' : String → Error} {name : String}
    {x : Option α} {a : α} (h : required missing name x = .ok a) :
    required missing' name x = .ok a := by
  rw [required_ok h]
  rfl

theorem shaped_message (elements : Decoder (List Element)) :
    (message elements).Shaped absent where
  commute := List.pairwise_singleton ..
  keep := List.forall_mem_singleton.mpr (.of_not_mem (by decide))
  nodup := by simp [message]
  finish := fun _ _ _ _ h => required_of_required h

theorem shaped_branch (value : Decoder Message) : (branch .string value).Shaped absent where
  commute := List.pairwise_pair.mpr (.of_stores fun _ _ _ => rfl)
  keep := List.forall_mem_cons.mpr
    ⟨.of_not_mem (by decide), List.forall_mem_singleton.mpr (.of_not_mem (by decide))⟩
  nodup := by simp [branch]
  finish := by
    rintro missing missing' state a h
    obtain ⟨selector, hs, h⟩ := bind_ok_iff.mp h
    obtain ⟨value, hv, h⟩ := bind_ok_iff.mp h
    refine bind_ok_iff.mpr ⟨_, required_of_required hs, ?_⟩
    exact bind_ok_iff.mpr ⟨_, required_of_required hv, h⟩

theorem shaped_text : (text .string).Shaped absent where
  commute := List.pairwise_singleton ..
  keep := List.forall_mem_singleton.mpr (.of_not_mem (by decide))
  nodup := by simp [text]
  finish := by
    rintro missing missing' state a h
    obtain ⟨value, hv, rfl⟩ := map_ok_iff.mp h
    exact map_ok_iff.mpr ⟨_, required_of_required hv, rfl⟩

theorem shaped_argument (format : Decoder Format) :
    (argument ArgumentId.decode (.nullable format)).Shaped absent where
  commute := List.pairwise_pair.mpr (.of_stores fun _ _ _ => rfl)
  keep := List.forall_mem_cons.mpr ⟨.of_not_mem (by decide),
    List.forall_mem_singleton.mpr (.of_default .null (by simp [absent]) rfl rfl)⟩
  nodup := by simp [argument]
  finish := by
    rintro missing missing' state a h
    obtain ⟨x, hx, h⟩ := bind_ok_iff.mp h
    exact bind_ok_iff.mpr ⟨_, required_of_required hx, h⟩

theorem shaped_simpleFormat (title : String) (kind : SimpleKind) :
    (simpleFormat title kind (.nullable .string)).Shaped absent where
  commute := List.pairwise_singleton ..
  keep := List.forall_mem_singleton.mpr (.of_default .null (by simp [absent]) rfl rfl)
  nodup := by simp [simpleFormat]
  finish := fun _ _ _ _ h => h

theorem shaped_selectFormat (branches : Decoder (List Branch)) :
    (selectFormat (.nullable .int64) branches).Shaped absent where
  commute := List.pairwise_pair.mpr (.of_stores fun _ _ _ => rfl)
  keep := List.forall_mem_cons.mpr ⟨.of_default .null (by simp [absent]) rfl rfl,
    List.forall_mem_singleton.mpr (.of_not_mem (by decide))⟩
  nodup := by simp [selectFormat]
  finish := by
    rintro missing missing' state a h
    obtain ⟨x, hx, h⟩ := bind_ok_iff.mp h
    exact bind_ok_iff.mpr ⟨_, required_of_required hx, h⟩

theorem shaped_pluralFormat (branches : Decoder (List Branch)) :
    (pluralFormat .bool (.nullable .int64) branches).Shaped absent where
  commute := .cons
    (List.forall_mem_cons.mpr ⟨.of_stores fun _ _ _ => rfl,
      List.forall_mem_singleton.mpr (.of_stores fun _ _ _ => rfl)⟩)
    (List.pairwise_pair.mpr (.of_stores fun _ _ _ => rfl))
  keep := List.forall_mem_cons.mpr ⟨.of_default (.bool false) (by simp [absent]) rfl rfl,
    List.forall_mem_cons.mpr ⟨.of_default .null (by simp [absent]) rfl rfl,
      List.forall_mem_singleton.mpr (.of_not_mem (by decide))⟩⟩
  nodup := by simp [pluralFormat]
  finish := by
    rintro missing missing' state a h
    obtain ⟨x, hx, h⟩ := bind_ok_iff.mp h
    exact bind_ok_iff.mpr ⟨_, required_of_required hx, h⟩

/-! ## Nodes -/

section

variable {foreign : Bool} {v : Value}

theorem reshaped_message {elements : Decoder (List Element)} {items : List Value}
    (h : (encodeMessage items).Reshaped foreign absent v) :
    ∃ items', Value.ReshapedItems foreign absent items items' ∧
      ∀ es, elements (.array items') = .ok es → Decoder.record (message elements) v = .ok es := by
  obtain ⟨full, hf, hw⟩ := h.node_ok
  obtain _ | ⟨harray, ⟨⟩⟩ := hf
  obtain ⟨items', rfl, hitems⟩ := harray.array_ok
  refine ⟨items', hitems, fun es hes => ?_⟩
  exact Decoder.record_shape (shaped_message elements) rfl hw
    ((decode_message elements _).trans hes)

theorem reshaped_branch {value : Decoder Message} {selector : String} {x : Value}
    (h : (encodeBranch selector x).Reshaped foreign absent v) :
    ∃ w, x.Reshaped foreign absent w ∧ ∀ m, value w = .ok m →
      Decoder.record (branch .string value) v = .ok ⟨selector, m⟩ := by
  obtain ⟨full, hf, hw⟩ := h.node_ok
  obtain _ | ⟨hselector, _ | ⟨hx, ⟨⟩⟩⟩ := hf
  obtain rfl := hselector.eq_of_scalar rfl
  refine ⟨_, hx, fun m hm => ?_⟩
  exact Decoder.record_shape (shaped_branch value) rfl hw
    ((decode_branch value selector _).trans (by rw [hm, map_ok]))

theorem reshaped_text {format : Decoder Format} {value : String}
    (h : (encodeText value).Reshaped foreign absent v) :
    Decoder.tagged (element format) v = .ok (.text value) := by
  obtain ⟨full, hf, hw⟩ := h.node_ok
  obtain _ | ⟨htag, _ | ⟨hvalue, ⟨⟩⟩⟩ := hf
  obtain rfl := htag.eq_of_scalar rfl
  obtain rfl := hvalue.eq_of_scalar rfl
  exact Decoder.tagged_shape rfl shaped_text tagName_not_absent (by simp; decide) rfl hw
    (decode_encodeText format value)

theorem reshaped_argument {format : Decoder Format} {id : ArgumentId} {x : Value}
    (h : (encodeArgument id x).Reshaped foreign absent v) :
    ∃ w, x.Reshaped foreign absent w ∧ ∀ f, format.nullable w = .ok f →
      Decoder.tagged (element format) v = .ok (argumentElement id f) := by
  obtain ⟨full, hf, hw⟩ := h.node_ok
  obtain _ | ⟨htag, _ | ⟨hid, _ | ⟨hx, ⟨⟩⟩⟩⟩ := hf
  obtain rfl := htag.eq_of_scalar rfl
  obtain rfl := hid.eq_of_scalar id.depth_encode
  refine ⟨_, hx, fun f hf => ?_⟩
  exact Decoder.tagged_shape rfl (shaped_argument format) tagName_not_absent
    (by simp; decide) rfl hw ((decode_encodeArgument format id _).trans (by rw [hf, map_ok]))

theorem reshaped_simple {branches : Decoder (List Branch)} {kind : SimpleKind}
    {style : Option String} (h : (encodeSimple kind style).Reshaped foreign absent v) :
    Decoder.tagged (format branches) v = .ok (.simple kind style) := by
  obtain ⟨full, hf, hw⟩ := h.node_ok
  obtain _ | ⟨htag, _ | ⟨hstyle, ⟨⟩⟩⟩ := hf
  obtain rfl := htag.eq_of_scalar rfl
  obtain rfl := hstyle.eq_of_scalar (depth_encodeOption (fun _ => rfl) style)
  obtain ⟨title, hnamed⟩ : ∃ title,
      (format branches).named kind.tag = .ok (format.simple title kind) := by
    cases kind <;> exact ⟨_, rfl⟩
  exact Decoder.tagged_shape hnamed (shaped_simpleFormat title kind) tagName_not_absent
    (by simp; decide) rfl hw (decode_encodeSimple branches kind style)

theorem reshaped_select {branches : Decoder (List Branch)} {offset : Option Int64}
    {items : List Value} (h : (encodeSelect offset items).Reshaped foreign absent v) :
    ∃ items', Value.ReshapedItems foreign absent items items' ∧
      ∀ bs, branches (.array items') = .ok bs →
        Decoder.tagged (format branches) v = .ok (.branching .select offset bs) := by
  obtain ⟨full, hf, hw⟩ := h.node_ok
  obtain _ | ⟨htag, _ | ⟨hoffset, _ | ⟨harray, ⟨⟩⟩⟩⟩ := hf
  obtain rfl := htag.eq_of_scalar rfl
  obtain rfl := hoffset.eq_of_scalar (depth_encodeOption (fun _ => rfl) offset)
  obtain ⟨items', rfl, hitems⟩ := harray.array_ok
  refine ⟨items', hitems, fun bs hbs => ?_⟩
  exact Decoder.tagged_shape rfl (shaped_selectFormat branches) tagName_not_absent
    (by simp; decide) rfl hw ((decode_encodeSelect branches offset _).trans (by rw [hbs, map_ok]))

theorem reshaped_plural {branches : Decoder (List Branch)} {ordinal : Bool}
    {offset : Option Int64} {items : List Value}
    (h : (encodePlural ordinal offset items).Reshaped foreign absent v) :
    ∃ items', Value.ReshapedItems foreign absent items items' ∧
      ∀ bs, branches (.array items') = .ok bs →
        Decoder.tagged (format branches) v = .ok (.branching (pluralKind ordinal) offset bs) := by
  obtain ⟨full, hf, hw⟩ := h.node_ok
  obtain _ | ⟨htag, _ | ⟨hordinal, _ | ⟨hoffset, _ | ⟨harray, ⟨⟩⟩⟩⟩⟩ := hf
  obtain rfl := htag.eq_of_scalar rfl
  obtain rfl := hordinal.eq_of_scalar rfl
  obtain rfl := hoffset.eq_of_scalar (depth_encodeOption (fun _ => rfl) offset)
  obtain ⟨items', rfl, hitems⟩ := harray.array_ok
  refine ⟨items', hitems, fun bs hbs => ?_⟩
  exact Decoder.tagged_shape rfl (shaped_pluralFormat branches) tagName_not_absent
    (by simp; decide) rfl hw
    ((decode_encodePlural branches ordinal offset _).trans (by rw [hbs, map_ok]))

theorem reshaped_branching {branches : Decoder (List Branch)} {kind : BranchKind}
    {offset : Option Int64} {items : List Value}
    (h : (encodeBranching kind offset items).Reshaped foreign absent v) :
    ∃ items', Value.ReshapedItems foreign absent items items' ∧
      ∀ bs, branches (.array items') = .ok bs →
        Decoder.tagged (format branches) v = .ok (.branching kind offset bs) := by
  cases kind with
  | plural | selectOrdinal => exact reshaped_plural h
  | select => exact reshaped_select h

end

end Node

/-! ## Trees -/

theorem Format.nullable_reshaped (decode : Decoder Format) {f : Format} {v : Value}
    (h : f.encode.Reshaped foreign Node.absent v) : decode.nullable v = (decode v).map some := by
  obtain ⟨ms, hf⟩ : ∃ ms, f.encode = .object ms := by
    cases f with
    | simple => exact ⟨_, rfl⟩
    | branching kind => cases kind <;> exact ⟨_, rfl⟩
  rw [hf] at h
  obtain ⟨full, -, hw⟩ := h.node_ok
  cases hw <;> rfl

mutual

theorem Element.decode_reshaped : ∀ {levels : Nat} (e : Element) {v : Value},
    e.nesting < levels → e.encode.Reshaped foreign Node.absent v → Element.decode levels v = .ok e
  | _ + 1, .text _, _, _, h => Node.reshaped_text h
  | _ + 1, .placeholder _, _, _, h => by
    obtain ⟨w, hw, hdecode⟩ := Node.reshaped_argument h
    obtain rfl := hw.eq_of_scalar rfl
    exact hdecode none rfl
  | levels + 1, .argument _ format, _, hn, h => by
    obtain ⟨w, hw, hdecode⟩ := Node.reshaped_argument h
    refine hdecode (some format) ?_
    rw [Format.nullable_reshaped _ hw, Format.decode_reshaped format (Nat.le_of_lt_succ hn) hw,
      map_ok]

theorem Format.decode_reshaped : ∀ {levels : Nat} (f : Format) {v : Value}, f.nesting ≤ levels →
    f.encode.Reshaped foreign Node.absent v →
      Decoder.tagged (Node.formatOver (Element.decode levels)) v = .ok f
  | _, .simple _ _, _, _, h => Node.reshaped_simple h
  | levels, .branching kind offset branches, _, hn, h => by
    obtain ⟨items, hitems, hdecode⟩ := Node.reshaped_branching h
    exact hdecode branches (Branch.decode_reshapedItems branches hn hitems)

theorem Branch.decode_reshapedItems : ∀ {levels : Nat} (branches : List Branch)
    {items : List Value}, Branch.nestingAll branches ≤ levels →
      Value.ReshapedItems foreign Node.absent (Branch.encodeAll branches) items →
        Decoder.list (Branch.decode levels) (.array items) = .ok branches
  | _, [], _, _, h => by
    cases h
    rfl
  | levels, ⟨selector, value⟩ :: rest, _, hn, h => by
    rw [Branch.nestingAll, Nat.max_le] at hn
    cases h with
    | @cons _ item _ _ h hrest =>
      obtain ⟨w, hw, hdecode⟩ := Node.reshaped_branch h
      obtain ⟨elements, helements, hmessage⟩ := Node.reshaped_message hw
      have hbranch : Branch.decode levels item = .ok ⟨selector, value⟩ :=
        hdecode value (hmessage value (Element.decode_reshapedItems value hn.1 helements))
      rw [Decoder.list_cons, hbranch, Branch.decode_reshapedItems rest hn.2 hrest]
      rfl

theorem Element.decode_reshapedItems : ∀ {levels : Nat} (elements : List Element)
    {items : List Value}, Element.nestingAll elements < levels →
      Value.ReshapedItems foreign Node.absent (Element.encodeAll elements) items →
        Decoder.list (Element.decode levels) (.array items) = .ok elements
  | _, [], _, _, h => by
    cases h
    rfl
  | levels, e :: rest, _, hn, h => by
    rw [Element.nestingAll, Nat.max_lt] at hn
    obtain _ | ⟨he, hrest⟩ := h
    rw [Decoder.list_cons, Element.decode_reshaped e hn.1 he,
      Element.decode_reshapedItems rest hn.2 hrest]
    rfl

end

theorem Message.decode_reshaped {levels : Nat} {m : Message} {v : Value}
    (hn : m.nesting < levels) (h : (Message.encode m).Reshaped foreign Node.absent v) :
    Message.decode levels v = .ok m := by
  obtain ⟨items, hitems, hdecode⟩ := Node.reshaped_message h
  exact hdecode m (Element.decode_reshapedItems m hn hitems)

/-! ## Tags -/

theorem Element.tag_reshaped {foreign : Bool} {e : Element} {v : Value}
    (h : e.encode.Reshaped foreign Node.absent v) : ∃ name, v.tag? = some (.string name) := by
  obtain ⟨name, ms, -, heq, hms, -⟩ := e.encode_tagFirst fun _ => fail .nestingTooDeep
  rw [heq] at h
  exact ⟨name, h.tag? hms fun hm => Node.tagName_not_absent _ hm rfl⟩

theorem Element.namedTags_reshaped {foreign : Bool} {elements : List Element} {items : List Value}
    (h : Value.ReshapedItems foreign Node.absent (Element.encodeAll elements) items) :
    NamedTags items := by
  induction elements generalizing items with
  | nil =>
    cases h
    exact fun _ hm => nomatch hm
  | cons e rest ih =>
    obtain _ | ⟨he, hrest⟩ := h
    obtain ⟨name, hname⟩ := Element.tag_reshaped he
    refine List.forall_mem_cons.mpr ⟨fun tag htag => ?_, ih hrest⟩
    obtain rfl : Value.string name = tag := Option.some.inj (hname.symm.trans htag)
    rfl

theorem Json.Value.ownElements_of_part? {v : Value} {items : List Value}
    (h : v.part? "elements" 0 = some (.array items)) : v.ownElements = items := by
  cases v with
  | object ms =>
    have hlookup : ms.lookup "elements" = some (.array items) := h
    rw [ownElements, hlookup]
  | array values =>
    cases values with
    | nil => simp [Value.part?] at h
    | cons first values =>
      obtain rfl : first = .array items := Option.some.inj h
      rfl
  | _ => simp [Value.part?] at h

theorem Message.namedTags_reshaped {foreign : Bool} {m : Message} {v : Value}
    (h : (Message.encode m).Reshaped foreign Node.absent v) : NamedTags v.ownElements := by
  obtain ⟨full, hf, hw⟩ := h.node_ok
  obtain _ | ⟨harray, ⟨⟩⟩ := hf
  obtain ⟨items, rfl, hitems⟩ := harray.array_ok
  have hpart : v.part? "elements" 0 = some (.array items) :=
    hw.part? rfl (by simp) (by simp [Node.absent])
  rw [Json.Value.ownElements_of_part? hpart]
  exact Element.namedTags_reshaped hitems

/-! ## Texts -/

/-- A message is read from any text of a shape of its JSON that has room for its containers. -/
theorem Message.read_of_reshaped {foreign : Bool} {m : Message} {v : Value} {source : String}
    (hv : (Message.encode m).Reshaped foreign Node.absent v) (ht : v.Text source.toList)
    (hd : v.depth ≤ maxNesting) : Message.read source = .ok m := by
  obtain ⟨rest, hr, hb⟩ := ht.spells hd [] .nil
  rw [List.append_nil] at hr
  have hstreamed : (Message.streamed 124 v).toOption =
      (Message.decode (max v.depth (m.nesting + 1)) v).toOption :=
    Message.streamed_eq_decode hd (Nat.le_max_left _ _) (Message.namedTags_reshaped hv)
  rw [Message.read_of_readValue hr hb, ← toOption_eq_some_iff, hstreamed, toOption_eq_some_iff]
  exact Message.decode_reshaped (Nat.le_max_right _ _) hv

end IcuMessage
