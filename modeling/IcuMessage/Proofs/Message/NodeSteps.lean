/-
The nodes below an element, as values: `NodeStep` goes from a node to those read
as its parts. Going down misses nothing and adds nothing: what is read as a part
of a decoded node is decoded (`NodeStep.decoded`), and all elements and formats
of the tree an element is decoded to come from it and the nodes below it
(`Element.origin_of_decode`).
-/
import Mathlib.Logic.Relation
import IcuMessage.Proofs.Json.Parts
import IcuMessage.Proofs.Message.Damage
import IcuMessage.Proofs.Message.Preorder

namespace IcuMessage

open Json

/-! ## Nodes -/

/-- What tells the variant of the node is its name. -/
def Json.Value.Named (name : String) (node : Value) : Prop :=
  node.tag? = some (.string name)

/-- What tells the variant of the node is its name, or the number of its place among those of the
kind. -/
def TaggedKind.Tells (kind : TaggedKind) (name : String) (node : Value) : Prop :=
  node.Named name ∨ ∃ index : Nat, kind.tags[index]? = some name ∧ node.tag? = some (.int index)

/-- From a node to one that is read as a part of it. A part stands at its place after the tag in an
array; a format that is null is none. -/
inductive NodeStep : TaggedKind × Value → TaggedKind × Value → Prop
  | format {node format : Value} (ht : TaggedKind.element.Tells "argumentElement" node)
      (hf : node.part? "format" 2 = some format) (hn : format ≠ .null) :
      NodeStep (.element, node) (.format, format)
  | element {node option message element : Value} {options elements : List Value} {name : String}
      {index : Nat} (hv : (name, index) ∈ [("pluralFormat", 3), ("selectFormat", 2)])
      (ht : TaggedKind.format.Tells name node)
      (ho : node.part? "options" index = some (.array options)) (hmem : option ∈ options)
      (hm : option.part? "value" 1 = some message)
      (he : message.part? "elements" 0 = some (.array elements)) (hmem' : element ∈ elements) :
      NodeStep (.format, node) (.element, element)

/-- The node itself, and all that are read below it. -/
def Json.Value.HasNode (element : Value) (kind : TaggedKind) (node : Value) : Prop :=
  Relation.ReflTransGen NodeStep (.element, element) (kind, node)

/-! ## Decoded nodes -/

/-- The element is decoded from the node, with as many levels below it as it takes. -/
def Element.DecodedFrom (e : Element) (node : Value) : Prop :=
  ∃ levels, Element.decode levels node = .ok e

/-- The format is decoded from the node, with as many levels below it as it takes. -/
def Format.DecodedFrom (f : Format) (node : Value) : Prop :=
  ∃ levels, Decoder.tagged (Node.formatOver (Element.decode levels)) node = .ok f

/-- The value is decoded as a node of the kind. -/
def TaggedKind.Decoded : TaggedKind → Value → Prop
  | .element, node => ∃ e : Element, e.DecodedFrom node
  | .format, node => ∃ f : Format, f.DecodedFrom node

theorem Node.names_element (format : Decoder Format) :
    (Node.element format).names = TaggedKind.element.tags :=
  rfl

theorem Node.names_format (branches : Decoder (List Branch)) :
    (Node.format branches).names = TaggedKind.format.tags :=
  rfl

theorem Json.Tagged.ofTag_of_tells {α : Type} {t : Tagged α} {kind : TaggedKind}
    (hk : t.names = kind.tags) {node tag : Value} {name : String} (h : kind.Tells name node)
    (ht : node.tag? = some tag) : t.ofTag tag = t.named name := by
  have hnodup : t.names.Nodup := by
    rw [hk]
    cases kind <;> decide
  rcases h with h | ⟨index, hname, h⟩
  · obtain rfl : .string name = tag := Option.some.inj (h.symm.trans ht)
    rfl
  · obtain rfl : .int index = tag := Option.some.inj (h.symm.trans ht)
    exact Tagged.ofTag_index hnodup (hk ▸ hname)

/-- A decoded node is told to be of a variant of its kind, and what it is without its tag has been
decoded as that. -/
theorem tagged_variant_ok {α : Type} {t : Tagged α} {kind : TaggedKind} (hk : t.names = kind.tags)
    {node : Value} {a : α} (h : Decoder.tagged t node = .ok a) :
    ∃ variant ∈ kind.tags, kind.Tells variant node ∧ ∃ decode w, t.named variant = .ok decode ∧
      decode w = .ok a ∧ ∀ name index, name ≠ tagName → w.part? name index =
        node.part? name (index + 1) := by
  obtain ⟨tag, decode, w, htag, hof, hw, hparts⟩ := Decoder.tagged_tag_ok h
  obtain ⟨variant, hvariant, heq⟩ := Tagged.ofTag_ok hof
  rw [hk] at hvariant heq
  have htells : kind.Tells variant node := by
    rcases heq with rfl | ⟨index, hindex, rfl⟩
    · exact .inl htag
    · exact .inr ⟨index, hindex, htag⟩
  rw [Tagged.ofTag_of_tells hk htells htag] at hof
  exact ⟨variant, hvariant, htells, decode, w, hof, hw, hparts⟩

theorem tells_of_tagged {α : Type} {t : Tagged α} {kind : TaggedKind} (hk : t.names = kind.tags)
    {node : Value} {a : α} (h : Decoder.tagged t node = .ok a) :
    ∃ name ∈ kind.tags, kind.Tells name node := by
  obtain ⟨name, hname, htells, -⟩ := tagged_variant_ok hk h
  exact ⟨name, hname, htells⟩

theorem TaggedKind.Decoded.tells {kind : TaggedKind} {node : Value} (h : kind.Decoded node) :
    ∃ name ∈ kind.tags, kind.Tells name node := by
  cases kind with
  | element =>
    obtain ⟨e, _ | levels, he⟩ := h
    · simp [Element.decode] at he
    · exact tells_of_tagged (Node.names_element _) he
  | format =>
    obtain ⟨f, levels, hf⟩ := h
    exact tells_of_tagged (Node.names_format _) hf

/-- A part of a node is what the field for it has its value from, in the record of the variant the
node is told to be of. -/
theorem tagged_part_ok {α σ : Type} {t : Tagged α} {kind : TaggedKind} (hk : t.names = kind.tags)
    {variant : String} {r : Record Decoder σ α} (hr : t.named variant = .ok (.record r))
    (index : Nat) {name : String} {value : Decoder (σ → σ)}
    (hi : r.fields[index]? = some ⟨name, value⟩) (hf : r.field? name = some ⟨name, value⟩)
    (hn : name ≠ tagName) {node part : Value} {a : α} (h : Decoder.tagged t node = .ok a)
    (ht : kind.Tells variant node) (hp : node.part? name (index + 1) = some part) :
    ∃ store, value part = .ok store := by
  obtain ⟨tag, decode, w, htag, hof, hw, hparts⟩ := Decoder.tagged_tag_ok h
  rw [Tagged.ofTag_of_tells hk ht htag, hr] at hof
  obtain rfl := Except.ok.inj hof
  exact Decoder.record_part_ok hw index hi hf ((hparts _ _ hn).trans hp)

/-! ## One step down -/

theorem Message.element_ok {decode : Decoder Element} {v : Value} {m : Message}
    (h : Decoder.record (Node.message (.list decode)) v = .ok m) {elements : List Value}
    (he : v.part? "elements" 0 = some (.array elements)) :
    ∀ element ∈ elements, ∃ e, decode element = .ok e := by
  obtain ⟨store, hs⟩ := Decoder.record_part_ok h 0 rfl rfl he
  obtain ⟨es, hes, -⟩ := Decoder.ok_of_map hs
  exact Decoder.list_item_ok hes

theorem Branch.message_ok {decode : Decoder Message} {v : Value} {b : Branch}
    (h : Decoder.record (Node.branch .string decode) v = .ok b) {message : Value}
    (hm : v.part? "value" 1 = some message) : ∃ m, decode message = .ok m := by
  obtain ⟨store, hs⟩ := Decoder.record_part_ok h 1 rfl rfl hm
  obtain ⟨m, hm, -⟩ := Decoder.ok_of_map hs
  exact ⟨m, hm⟩

theorem Format.options_ok {branches : Decoder (List Branch)} {node : Value} {f : Format}
    (h : Decoder.tagged (Node.format branches) node = .ok f) {name : String} {index : Nat}
    (hv : (name, index) ∈ [("pluralFormat", 3), ("selectFormat", 2)])
    (ht : TaggedKind.format.Tells name node) {options : Value}
    (ho : node.part? "options" index = some options) : ∃ bs, branches options = .ok bs := by
  simp only [List.mem_cons, Prod.mk.injEq, List.not_mem_nil, or_false] at hv
  rcases hv with ⟨rfl, rfl⟩ | ⟨rfl, rfl⟩
  · obtain ⟨store, hs⟩ := tagged_part_ok (Node.names_format _) rfl 2 rfl rfl (by decide) h ht ho
    obtain ⟨bs, hbs, -⟩ := Decoder.ok_of_map hs
    exact ⟨bs, hbs⟩
  · obtain ⟨store, hs⟩ := tagged_part_ok (Node.names_format _) rfl 1 rfl rfl (by decide) h ht ho
    obtain ⟨bs, hbs, -⟩ := Decoder.ok_of_map hs
    exact ⟨bs, hbs⟩

theorem Element.format_ok {format : Decoder Format} {node : Value} {e : Element}
    (h : Decoder.tagged (Node.element format) node = .ok e)
    (ht : TaggedKind.element.Tells "argumentElement" node) {part : Value}
    (hp : node.part? "format" 2 = some part) (hn : part ≠ .null) : ∃ f, format part = .ok f := by
  obtain ⟨store, hs⟩ := tagged_part_ok (Node.names_element _) rfl 1 rfl rfl (by decide) h ht hp
  obtain ⟨x, hx, -⟩ := Decoder.ok_of_map hs
  exact Decoder.nullable_ne_null hx hn

/-- What is read as a part of a decoded node is decoded as a node. -/
theorem NodeStep.decoded {a b : TaggedKind × Value} (h : NodeStep a b) (ha : a.1.Decoded a.2) :
    b.1.Decoded b.2 := by
  cases h with
  | format ht hf hn =>
    obtain ⟨e, _ | levels, he⟩ := ha
    · simp [Element.decode] at he
    · obtain ⟨f, hf⟩ := Element.format_ok he ht hf hn
      exact ⟨f, levels, hf⟩
  | element hv ht ho hmem hm he hmem' =>
    obtain ⟨f, levels, hf⟩ := ha
    obtain ⟨bs, hbs⟩ := Format.options_ok hf hv ht ho
    obtain ⟨b, hb⟩ := Decoder.list_item_ok hbs _ hmem
    obtain ⟨m, hm⟩ := Branch.message_ok hb hm
    obtain ⟨e, he⟩ := Message.element_ok hm he _ hmem'
    exact ⟨e, levels, he⟩

theorem Json.Value.HasNode.decoded {element : Value} {kind : TaggedKind} {node : Value}
    (h : element.HasNode kind node) (he : TaggedKind.element.Decoded element) :
    kind.Decoded node := by
  suffices ∀ b, Relation.ReflTransGen NodeStep (.element, element) b → b.1.Decoded b.2 from
    this _ h
  intro b hb
  induction hb with
  | refl => exact he
  | tail _ hstep ih => exact hstep.decoded ih

/-! ## Where the elements of the tree come from -/

/-- What a record holds in a place that one of its fields only puts something in. -/
theorem record_holds {σ β α : Type} {r : Record Decoder σ α} {v : Value} {a : α}
    (h : Decoder.record r v = .ok a) (get : σ → Option β) (hs : get r.start = none)
    (name : String) (index : Nat) (P : Value → β → Prop)
    (hf : ∀ (i : Nat) n (value : Decoder (σ → σ)), r.fields[i]? = some ⟨n, value⟩ →
      ∀ w store, value w = .ok store → ∀ state, get (store state) = get state ∨
        n = name ∧ i = index ∧ ∀ b ∈ get (store state), P w b) :
    ∃ missing state, r.finish missing state = .ok a ∧
      ∀ b ∈ get state, ∃ w, v.part? name index = some w ∧ P w b := by
  obtain ⟨missing, state, hstate, hfinish⟩ := Decoder.record_parts_ok h
    (fun state => ∀ b ∈ get state, ∃ w, v.part? name index = some w ∧ P w b)
    (by simp [hs]) fun i n value hi w store hw hstore state hstate b hb => by
      rcases hf i n value hi w store hstore state with heq | ⟨rfl, rfl, hP⟩
      · exact hstate b (heq ▸ hb)
      · exact ⟨w, hw, hP b hb⟩
  exact ⟨missing, state, hfinish, hstate⟩

theorem Message.elements_of_record {elements : Decoder (List Element)} {v : Value} {m : Message}
    (h : Decoder.record (Node.message elements) v = .ok m) :
    ∃ w, v.part? "elements" 0 = some w ∧ elements w = .ok m := by
  obtain ⟨missing, state, hfinish, hstate⟩ := record_holds h id rfl "elements" 0
    (fun w es => elements w = .ok es) fun i n value hi w store hstore state => by
      match i, hi with
      | 0, hi =>
        obtain ⟨rfl, rfl⟩ : "elements" = n ∧ _ = value := by simpa [Node.message] using hi
        obtain ⟨es, hes, rfl⟩ := Decoder.ok_of_map hstore
        exact .inr ⟨rfl, rfl, by simpa using hes⟩
  exact hstate m (required_ok hfinish)

theorem Branch.value_of_record {selector : Decoder String} {value : Decoder Message} {v : Value}
    {b : Branch} (h : Decoder.record (Node.branch selector value) v = .ok b) :
    ∃ w, v.part? "value" 1 = some w ∧ value w = .ok b.value := by
  obtain ⟨missing, state, hfinish, hstate⟩ := record_holds h (·.2) rfl "value" 1
    (fun w m => value w = .ok m) fun i n value' hi w store hstore state => by
      match i, hi with
      | 0, hi =>
        obtain ⟨rfl, rfl⟩ : "selector" = n ∧ _ = value' := by simpa [Node.branch] using hi
        obtain ⟨s, hs, rfl⟩ := Decoder.ok_of_map hstore
        exact .inl rfl
      | 1, hi =>
        obtain ⟨rfl, rfl⟩ : "value" = n ∧ _ = value' := by simpa [Node.branch] using hi
        obtain ⟨m, hm, rfl⟩ := Decoder.ok_of_map hstore
        exact .inr ⟨rfl, rfl, by simpa using hm⟩
  obtain ⟨selector, hs, hfinish⟩ := bind_ok_iff.mp hfinish
  obtain ⟨m, hm, hfinish⟩ := bind_ok_iff.mp hfinish
  obtain rfl := Except.ok.inj hfinish
  exact hstate m (required_ok hm)

/-- A format that is there has been decoded from what is not null. -/
theorem Element.format_of_record {id : Decoder ArgumentId} {format : Decoder Format} {v : Value}
    {i : ArgumentId} {f : Format}
    (h : Decoder.record (Node.argument id (.nullable format)) v = .ok (.argument i f)) :
    ∃ w, v.part? "format" 1 = some w ∧ w ≠ .null ∧ format w = .ok f := by
  obtain ⟨missing, state, hfinish, hstate⟩ := record_holds h (·.2) rfl "format" 1
    (fun w f => w ≠ .null ∧ format w = .ok f) fun i n value hi w store hstore state => by
      match i, hi with
      | 0, hi =>
        obtain ⟨rfl, rfl⟩ : "id" = n ∧ _ = value := by simpa [Node.argument] using hi
        obtain ⟨i, hid, rfl⟩ := Decoder.ok_of_map hstore
        exact .inl rfl
      | 1, hi =>
        obtain ⟨rfl, rfl⟩ : "format" = n ∧ _ = value := by simpa [Node.argument] using hi
        obtain ⟨x, hx, rfl⟩ := Decoder.ok_of_map hstore
        refine .inr ⟨rfl, rfl, fun f hf => ⟨?_, Decoder.nullable_ok hx f hf⟩⟩
        rintro rfl
        obtain rfl : none = x := Except.ok.inj hx
        simp at hf
  obtain ⟨id, hid, hfinish⟩ := bind_ok_iff.mp hfinish
  obtain ⟨_, _ | g⟩ := state
  · simp [Node.argumentElement] at hfinish
  · obtain ⟨-, rfl⟩ : id = i ∧ g = f := by simpa [Node.argumentElement] using hfinish
    exact hstate g rfl

theorem Format.options_of_plural {ordinal : Decoder Bool} {offset : Decoder (Option Int64)}
    {branches : Decoder (List Branch)} {v : Value} {f : Format}
    (h : Decoder.record (Node.pluralFormat ordinal offset branches) v = .ok f) :
    ∃ w, v.part? "options" 2 = some w ∧ branches w = .ok f.branches := by
  obtain ⟨missing, state, hfinish, hstate⟩ := record_holds h (·.2.2) rfl "options" 2
    (fun w bs => branches w = .ok bs) fun i n value hi w store hstore state => by
      match i, hi with
      | 0, hi =>
        obtain ⟨rfl, rfl⟩ : "ordinal" = n ∧ _ = value := by simpa [Node.pluralFormat] using hi
        obtain ⟨b, hb, rfl⟩ := Decoder.ok_of_map hstore
        exact .inl rfl
      | 1, hi =>
        obtain ⟨rfl, rfl⟩ : "offset" = n ∧ _ = value := by simpa [Node.pluralFormat] using hi
        obtain ⟨x, hx, rfl⟩ := Decoder.ok_of_map hstore
        exact .inl rfl
      | 2, hi =>
        obtain ⟨rfl, rfl⟩ : "options" = n ∧ _ = value := by simpa [Node.pluralFormat] using hi
        obtain ⟨bs, hbs, rfl⟩ := Decoder.ok_of_map hstore
        exact .inr ⟨rfl, rfl, by simpa using hbs⟩
  obtain ⟨bs, hbs, hfinish⟩ := bind_ok_iff.mp hfinish
  obtain rfl := Except.ok.inj hfinish
  exact hstate bs (required_ok hbs)

theorem Format.options_of_select {offset : Decoder (Option Int64)}
    {branches : Decoder (List Branch)} {v : Value} {f : Format}
    (h : Decoder.record (Node.selectFormat offset branches) v = .ok f) :
    ∃ w, v.part? "options" 1 = some w ∧ branches w = .ok f.branches := by
  obtain ⟨missing, state, hfinish, hstate⟩ := record_holds h (·.2) rfl "options" 1
    (fun w bs => branches w = .ok bs) fun i n value hi w store hstore state => by
      match i, hi with
      | 0, hi =>
        obtain ⟨rfl, rfl⟩ : "offset" = n ∧ _ = value := by simpa [Node.selectFormat] using hi
        obtain ⟨x, hx, rfl⟩ := Decoder.ok_of_map hstore
        exact .inl rfl
      | 1, hi =>
        obtain ⟨rfl, rfl⟩ : "options" = n ∧ _ = value := by simpa [Node.selectFormat] using hi
        obtain ⟨bs, hbs, rfl⟩ := Decoder.ok_of_map hstore
        exact .inr ⟨rfl, rfl, by simpa using hbs⟩
  obtain ⟨bs, hbs, hfinish⟩ := bind_ok_iff.mp hfinish
  obtain rfl := Except.ok.inj hfinish
  exact hstate bs (required_ok hbs)

/-- Branches are those of the options of a plural or a select. -/
theorem Format.options_of_tagged {branches : Decoder (List Branch)} {node : Value} {f : Format}
    (h : Decoder.tagged (Node.format branches) node = .ok f) (hb : f.branches ≠ []) :
    ∃ name index, (name, index) ∈ [("pluralFormat", 3), ("selectFormat", 2)] ∧
      TaggedKind.format.Tells name node ∧
      ∃ options, node.part? "options" index = some options ∧ branches options = .ok f.branches := by
  obtain ⟨variant, hvariant, htells, decode, w, hof, hw, hparts⟩ :=
    tagged_variant_ok (Node.names_format _) h
  have hsimple : ∀ title kind, decode = Node.format.simple title kind → f.branches = [] := by
    rintro title kind rfl
    obtain ⟨missing, state, -, hf⟩ := Decoder.record_ok hw (fun _ => True) trivial (by simp)
    obtain rfl := Except.ok.inj hf
    rfl
  simp only [TaggedKind.tags, List.mem_cons, List.not_mem_nil, or_false] at hvariant
  rcases hvariant with rfl | rfl | rfl | rfl | rfl
  · exact absurd (hsimple _ _ (Except.ok.inj hof).symm) hb
  · exact absurd (hsimple _ _ (Except.ok.inj hof).symm) hb
  · exact absurd (hsimple _ _ (Except.ok.inj hof).symm) hb
  · obtain rfl := Except.ok.inj hof
    obtain ⟨options, ho, hbs⟩ := Format.options_of_plural hw
    exact ⟨_, 3, by simp, htells, options, by rwa [← hparts _ _ (by decide)], hbs⟩
  · obtain rfl := Except.ok.inj hof
    obtain ⟨options, ho, hbs⟩ := Format.options_of_select hw
    exact ⟨_, 2, by simp, htells, options, by rwa [← hparts _ _ (by decide)], hbs⟩

/-- An element below a format stands in the message of one of its options. -/
theorem Format.step_of_tagged {decode : Decoder Element} {node : Value} {f : Format}
    (h : Decoder.tagged (Node.formatOver decode) node = .ok f) {b : Branch} (hb : b ∈ f.branches)
    {e : Element} (he : e ∈ b.value) :
    ∃ element, NodeStep (.format, node) (.element, element) ∧ decode element = .ok e := by
  obtain ⟨name, index, hv, htells, w, ho, hbs⟩ :=
    Format.options_of_tagged h (List.ne_nil_of_mem hb)
  obtain ⟨options, rfl, hbs⟩ := Decoder.list_ok_array hbs
  obtain ⟨option, hoption, hb⟩ := mem_of_mapM_ok hbs b hb
  obtain ⟨message, hm, hvalue⟩ := Branch.value_of_record hb
  obtain ⟨w, helements, hes⟩ := Message.elements_of_record hvalue
  obtain ⟨elements, rfl, hes⟩ := Decoder.list_ok_array hes
  obtain ⟨element, helement, he⟩ := mem_of_mapM_ok hes e he
  exact ⟨element, .element hv htells ho hoption hm helements helement, he⟩

/-- The format of an argument is a node below it. -/
theorem Element.step_of_tagged {format : Decoder Format} {node : Value} {id : ArgumentId}
    {f : Format} (h : Decoder.tagged (Node.element format) node = .ok (.argument id f)) :
    ∃ part, NodeStep (.element, node) (.format, part) ∧ format part = .ok f := by
  obtain ⟨variant, hvariant, htells, decode, w, hof, hw, hparts⟩ :=
    tagged_variant_ok (Node.names_element _) h
  simp only [TaggedKind.tags, List.mem_cons, List.not_mem_nil, or_false] at hvariant
  rcases hvariant with rfl | rfl
  · obtain rfl := Except.ok.inj hof
    obtain ⟨missing, state, -, he⟩ := Decoder.record_ok hw (fun _ => True) trivial (by simp)
    obtain ⟨value, -, he⟩ := map_ok_iff.mp he
    simp at he
  · obtain rfl := Except.ok.inj hof
    obtain ⟨part, hp, hn, hf⟩ := Element.format_of_record hw
    exact ⟨part, .format htells (by rwa [← hparts _ _ (by decide)]) hn, hf⟩

theorem Element.origin_of_decode {levels : Nat} {node : Value} {e : Element}
    (h : Element.decode levels node = .ok e) :
    ∀ d ∈ e.preorder, ∃ origin, node.HasNode .element origin ∧ d.DecodedFrom origin := by
  induction levels generalizing node e with
  | zero => simp [Element.decode] at h
  | succ levels ih =>
    intro d hd
    rcases Element.mem_preorder.mp hd with rfl | ⟨id, f, rfl, b, hb, c, hc, hd⟩
    · exact ⟨node, .refl, levels + 1, h⟩
    · obtain ⟨format, hformat, hf⟩ := Element.step_of_tagged h
      obtain ⟨element, helement, hc⟩ := Format.step_of_tagged hf hb hc
      obtain ⟨origin, horigin, hd⟩ := ih hc d hd
      exact ⟨origin, .head hformat (.head helement horigin), hd⟩

theorem Element.DecodedFrom.format {node : Value} {id : ArgumentId} {f : Format}
    (h : (Element.argument id f).DecodedFrom node) :
    ∃ format, NodeStep (.element, node) (.format, format) ∧ f.DecodedFrom format := by
  obtain ⟨_ | levels, h⟩ := h
  · simp [Element.decode] at h
  · obtain ⟨format, hstep, hf⟩ := Element.step_of_tagged h
    exact ⟨format, hstep, levels, hf⟩

/-- All elements and all formats of the message are decoded from the values, or from nodes below
them. -/
def Message.DecodedFrom (m : Message) (values : List Value) : Prop :=
  ∀ e ∈ Element.preorderAll m, ∃ value ∈ values,
    (∃ node, value.HasNode .element node ∧ e.DecodedFrom node) ∧
      ∀ id f, e = .argument id f → ∃ node, value.HasNode .format node ∧ f.DecodedFrom node

theorem Message.decodedFrom_of_forall {m : Message} {values : List Value}
    (h : ∀ e ∈ m, ∃ value ∈ values, e.DecodedFrom value) : m.DecodedFrom values := by
  intro d hd
  obtain ⟨e, he, hd⟩ := Element.mem_preorderAll.mp hd
  obtain ⟨value, hvalue, levels, hdecode⟩ := h e he
  obtain ⟨node, hnode, hfrom⟩ := Element.origin_of_decode hdecode d hd
  refine ⟨value, hvalue, ⟨node, hnode, hfrom⟩, ?_⟩
  rintro id f rfl
  obtain ⟨format, hstep, hf⟩ := hfrom.format
  exact ⟨format, hnode.tail hstep, hf⟩

end IcuMessage
