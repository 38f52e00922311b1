/-
How deep messages are nested, and how deep their JSON values are. Six
containers lie between the elements of a message and those of an option's
value: the element, its format, the list of options, the option, the message
and the list of its elements. So a written message is at most three containers
deeper than its nesting asks for (`Message.depth_encode_le`), and no value,
however it is written, is less deep than the message it is decoded to
(`Element.nesting_le_of_decode`).
-/
import IcuMessage.Message.Write
import IcuMessage.Proofs.Json.Decoded

namespace IcuMessage

open Json

mutual

/-- How many options lie inside one another. -/
def Element.nesting : Element → Nat
  | .text _ | .placeholder _ => 0
  | .argument _ format => format.nesting

def Format.nesting : Format → Nat
  | .simple _ _ => 0
  | .branching _ _ branches => Branch.nestingAll branches

def Branch.nestingAll : List Branch → Nat
  | [] => 0
  | ⟨_, value⟩ :: rest => max (Element.nestingAll value + 1) (Branch.nestingAll rest)

def Element.nestingAll : List Element → Nat
  | [] => 0
  | element :: rest => max element.nesting (Element.nestingAll rest)

end

/-- Zero if no argument has an option, else one more than the deepest nested option value. -/
def Message.nesting (message : Message) : Nat :=
  Element.nestingAll message

/-! ## Written messages -/

theorem ArgumentId.depth_encode (id : ArgumentId) : id.encode.depth = 0 := by
  cases id <;> rfl

theorem depth_encodeOption {α : Type} {encode : α → Value} (h : ∀ a, (encode a).depth = 0)
    (x : Option α) : (encodeOption encode x).depth = 0 := by
  cases x with
  | none => rfl
  | some a => exact h a

mutual

theorem Element.depth_encode_le : ∀ e : Element, e.encode.depth ≤ 6 * e.nesting + 3
  | .text _ => by simp [Element.encode, Node.encodeText, Value.depth, Value.depthMembers]
  | .placeholder id => by
    simp [Element.encode, Node.encodeArgument, Value.depth, Value.depthMembers, id.depth_encode]
  | .argument id format => by
    have := Format.depth_encode_le format
    simp only [Element.encode, Node.encodeArgument, Value.depth, Value.depthMembers,
      id.depth_encode, Element.nesting]
    omega

theorem Format.depth_encode_le : ∀ f : Format, f.encode.depth ≤ 6 * f.nesting + 2
  | .simple kind style => by
    have : (encodeOption Value.string style).depth = 0 := depth_encodeOption (fun _ => rfl) style
    simp only [Format.encode, Node.encodeSimple, Value.depth, Value.depthMembers, this]
    omega
  | .branching kind offset branches => by
    have hb := Branch.depth_encodeAll_le branches
    have ho : (encodeOffset offset).depth = 0 := depth_encodeOption (fun _ => rfl) offset
    cases kind <;>
      simp only [Format.encode, Node.encodeBranching, Node.encodePlural, Node.encodeSelect,
        Value.depth, Value.depthMembers, Format.nesting, ho] <;> omega

theorem Branch.depth_encodeAll_le : ∀ branches : List Branch,
    Value.depthItems (Branch.encodeAll branches) ≤ 6 * Branch.nestingAll branches
  | [] => Nat.zero_le _
  | ⟨_, value⟩ :: rest => by
    have hv := Element.depth_encodeAll_le value
    have hr := Branch.depth_encodeAll_le rest
    simp only [Branch.encodeAll, Node.encodeBranch, Node.encodeMessage, Value.depthItems,
      Value.depth, Value.depthMembers, Branch.nestingAll]
    omega

theorem Element.depth_encodeAll_le : ∀ elements : List Element,
    Value.depthItems (Element.encodeAll elements) ≤ 6 * Element.nestingAll elements + 3
  | [] => Nat.zero_le _
  | e :: rest => by
    have he := Element.depth_encode_le e
    have hr := Element.depth_encodeAll_le rest
    simp only [Element.encodeAll, Value.depthItems, Element.nestingAll]
    omega

end

theorem Message.depth_encode (m : Message) :
    (Message.encode m).depth = Value.depthItems (Element.encodeAll m) + 2 := by
  simp [Message.encode, Node.encodeMessage, Value.depth, Value.depthMembers]

theorem Message.depth_encode_le (m : Message) : (Message.encode m).depth ≤ 6 * m.nesting + 5 := by
  have := Element.depth_encodeAll_le m
  rw [Message.depth_encode, Message.nesting]
  omega

/-! ## Decoded messages -/

theorem Element.nestingAll_le {n : Nat} {elements : List Element}
    (h : ∀ e ∈ elements, e.nesting ≤ n) : Element.nestingAll elements ≤ n := by
  induction elements with
  | nil => exact Nat.zero_le _
  | cons e rest ih =>
    rw [Element.nestingAll]
    exact Nat.max_le.mpr ⟨h e List.mem_cons_self, ih fun e he => h e (List.mem_cons_of_mem _ he)⟩

theorem Branch.nestingAll_le {n : Nat} {branches : List Branch}
    (h : ∀ b ∈ branches, b.value.nesting + 1 ≤ n) : Branch.nestingAll branches ≤ n := by
  induction branches with
  | nil => exact Nat.zero_le _
  | cons b rest ih =>
    obtain ⟨selector, value⟩ := b
    rw [Branch.nestingAll]
    exact Nat.max_le.mpr ⟨h _ List.mem_cons_self, ih fun b hb => h b (List.mem_cons_of_mem _ hb)⟩

theorem Element.nesting_le_nestingAll {e : Element} {elements : List Element} (h : e ∈ elements) :
    e.nesting ≤ Element.nestingAll elements := by
  induction elements with
  | nil => cases h
  | cons first rest ih =>
    rw [Element.nestingAll]
    rcases List.mem_cons.mp h with rfl | h
    · exact Nat.le_max_left _ _
    · exact Nat.le_trans (ih h) (Nat.le_max_right _ _)

theorem Branch.nesting_lt_nestingAll {b : Branch} {branches : List Branch} (h : b ∈ branches) :
    b.value.nesting < Branch.nestingAll branches := by
  induction branches with
  | nil => cases h
  | cons first rest ih =>
    obtain ⟨selector, value⟩ := first
    rw [Branch.nestingAll]
    rcases List.mem_cons.mp h with rfl | h
    · exact Nat.le_max_left _ _
    · exact Nat.lt_of_lt_of_le (ih h) (Nat.le_max_right _ _)

theorem required_ok {α : Type} {missing : String → Error} {name : String} {x : Option α} {a : α}
    (h : required missing name x = .ok a) : x = some a := by
  cases x with
  | none => simp [required] at h
  | some b => exact congrArg some (Except.ok.inj h)

section

variable {element : Decoder Element} {v : Value}

theorem Message.nesting_le_of_record
    (h : ∀ (w : Value) e, element w = .ok e → 6 * e.nesting ≤ w.depth) {m : Message}
    (hm : Decoder.record (Node.message (.list element)) v = .ok m) :
    6 * m.nesting + 2 ≤ v.depth := by
  obtain ⟨missing, state, hs, hf⟩ := Decoder.record_ok hm
    (fun state => ∀ es ∈ state, 6 * Element.nestingAll es + 2 ≤ v.depth) (by simp [Node.message])
    fun field hfield w hw store hv state _ es hes => by
      simp only [Node.message, List.mem_singleton] at hfield
      subst hfield
      obtain ⟨elements, hl, rfl⟩ := Decoder.ok_of_map hv
      obtain rfl : elements = es := Option.some.inj hes
      obtain ⟨hpos, hl⟩ := Decoder.list_ok hl
      have hn : Element.nestingAll elements ≤ (w.depth - 1) / 6 :=
        Element.nestingAll_le fun e he => by
          obtain ⟨item, hd, hi⟩ := hl e he
          have := h item e hi
          omega
      omega
  exact hs m (required_ok hf)

theorem Branch.nesting_le_of_record {message : Decoder Message}
    (h : ∀ (w : Value) m, message w = .ok m → 6 * m.nesting + 2 ≤ w.depth) {b : Branch}
    (hb : Decoder.record (Node.branch .string message) v = .ok b) :
    6 * b.value.nesting + 3 ≤ v.depth := by
  obtain ⟨missing, state, hs, hf⟩ := Decoder.record_ok hb
    (fun state => ∀ m ∈ state.2, 6 * Message.nesting m + 3 ≤ v.depth) (by simp [Node.branch])
    fun field hfield w hw store hv state hs m hm => by
      simp only [Node.branch, List.mem_cons, List.not_mem_nil, or_false] at hfield
      rcases hfield with rfl | rfl
      · obtain ⟨selector, -, rfl⟩ := Decoder.ok_of_map hv
        exact hs m hm
      · obtain ⟨value, hvalue, rfl⟩ := Decoder.ok_of_map hv
        obtain rfl : value = m := Option.some.inj hm
        have := h w value hvalue
        omega
  obtain ⟨selector, -, hf⟩ := bind_ok_iff.mp hf
  obtain ⟨value, hv, hf⟩ := bind_ok_iff.mp hf
  obtain rfl : ⟨selector, value⟩ = b := Except.ok.inj hf
  exact hs value (required_ok hv)

theorem Branch.nestingAll_le_of_list {branch : Decoder Branch}
    (h : ∀ (w : Value) b, branch w = .ok b → 6 * b.value.nesting + 3 ≤ w.depth)
    {bs : List Branch} (hbs : Decoder.list branch v = .ok bs) :
    6 * Branch.nestingAll bs ≤ v.depth + 2 := by
  obtain ⟨hpos, hl⟩ := Decoder.list_ok hbs
  have hn : Branch.nestingAll bs ≤ (v.depth + 2) / 6 :=
    Branch.nestingAll_le fun b hb => by
      obtain ⟨item, hd, hi⟩ := hl b hb
      have := h item b hi
      omega
  omega

/-- A format with branches, wherever its record keeps them. -/
theorem Format.nesting_le_of_record {branches : Decoder (List Branch)}
    (h : ∀ (w : Value) bs, branches w = .ok bs → 6 * Branch.nestingAll bs ≤ w.depth + 2)
    {σ : Type} {r : Record Decoder σ Format} (options : σ → Option (List Branch))
    (hs : options r.start = none)
    (hfields : ∀ field ∈ r.fields, ∀ w store, field.value w = .ok store → ∀ state,
      ∀ bs ∈ options (store state), bs ∈ options state ∨ branches w = .ok bs)
    (hfinish : ∀ missing state f, r.finish missing state = .ok f →
      ∃ bs ∈ options state, f.nesting = Branch.nestingAll bs)
    {f : Format} (hf : Decoder.record r v = .ok f) : 6 * f.nesting ≤ v.depth + 1 := by
  obtain ⟨missing, state, hstate, hf⟩ := Decoder.record_ok hf
    (fun state => ∀ bs ∈ options state, 6 * Branch.nestingAll bs ≤ v.depth + 1) (by simp [hs])
    fun field hfield w hw store hv state hstate bs hbs => by
      rcases hfields field hfield w store hv state bs hbs with hbs | hbs
      · exact hstate bs hbs
      · have := h w bs hbs
        omega
  obtain ⟨bs, hbs, hn⟩ := hfinish missing state f hf
  rw [hn]
  exact hstate bs hbs

theorem Format.nesting_le_of_tagged {branches : Decoder (List Branch)}
    (h : ∀ (w : Value) bs, branches w = .ok bs → 6 * Branch.nestingAll bs ≤ w.depth + 2)
    {f : Format} (hf : Decoder.tagged (Node.format branches) v = .ok f) :
    6 * f.nesting ≤ v.depth + 1 := by
  obtain ⟨name, decode, hd, w, hw, hf⟩ := Decoder.tagged_ok hf
  refine Nat.le_trans ?_ (Nat.succ_le_succ hw)
  simp only [Node.format, List.mem_cons, List.not_mem_nil, or_false, Prod.mk.injEq] at hd
  rcases hd with ⟨-, rfl⟩ | ⟨-, rfl⟩ | ⟨-, rfl⟩ | ⟨-, rfl⟩ | ⟨-, rfl⟩
  case inr.inr.inr.inl =>
    refine Format.nesting_le_of_record h (fun state => state.2.2) rfl ?_ ?_ hf
    · intro field hfield w store hv state bs hbs
      simp only [Node.pluralFormat, List.mem_cons, List.not_mem_nil, or_false] at hfield
      rcases hfield with rfl | rfl | rfl
      · obtain ⟨_, -, rfl⟩ := Decoder.ok_of_map hv
        exact .inl hbs
      · obtain ⟨_, -, rfl⟩ := Decoder.ok_of_map hv
        exact .inl hbs
      · obtain ⟨bs', hlist, rfl⟩ := Decoder.ok_of_map hv
        obtain rfl : bs' = bs := Option.some.inj hbs
        exact .inr hlist
    · intro missing state f hf
      obtain ⟨bs, hb, hf⟩ := bind_ok_iff.mp hf
      obtain rfl := Except.ok.inj hf
      exact ⟨bs, required_ok hb, rfl⟩
  case inr.inr.inr.inr =>
    refine Format.nesting_le_of_record h (fun state => state.2) rfl ?_ ?_ hf
    · intro field hfield w store hv state bs hbs
      simp only [Node.selectFormat, List.mem_cons, List.not_mem_nil, or_false] at hfield
      rcases hfield with rfl | rfl
      · obtain ⟨_, -, rfl⟩ := Decoder.ok_of_map hv
        exact .inl hbs
      · obtain ⟨bs', hlist, rfl⟩ := Decoder.ok_of_map hv
        obtain rfl : bs' = bs := Option.some.inj hbs
        exact .inr hlist
    · intro missing state f hf
      obtain ⟨bs, hb, hf⟩ := bind_ok_iff.mp hf
      obtain rfl := Except.ok.inj hf
      exact ⟨bs, required_ok hb, rfl⟩
  all_goals
    obtain ⟨missing, state, -, hf⟩ := Decoder.record_ok hf (fun _ => True) trivial
      fun _ _ _ _ _ _ _ _ => trivial
    obtain rfl := Except.ok.inj hf
    exact Nat.zero_le _

theorem Element.nesting_le_of_variant {format : Decoder Format}
    (h : ∀ (w : Value) f, format w = .ok f → 6 * f.nesting ≤ w.depth + 1) {name : String}
    {decode : Decoder Element} (hd : (name, decode) ∈ (Node.element format).variants) {e : Element}
    (he : decode v = .ok e) : 6 * e.nesting ≤ v.depth := by
  simp only [Node.element, List.mem_cons, List.not_mem_nil, or_false, Prod.mk.injEq] at hd
  rcases hd with ⟨-, rfl⟩ | ⟨-, rfl⟩
  · obtain ⟨missing, state, -, he⟩ := Decoder.record_ok he (fun _ => True) trivial
      fun _ _ _ _ _ _ _ _ => trivial
    obtain ⟨value, -, rfl⟩ := map_ok_iff.mp he
    exact Nat.zero_le _
  · obtain ⟨missing, state, hs, he⟩ := Decoder.record_ok he
      (fun state => ∀ f ∈ state.2, 6 * Format.nesting f ≤ v.depth) (by simp [Node.argument])
      fun field hfield u hu store hv state hs f hf => by
        simp only [Node.argument, List.mem_cons, List.not_mem_nil, or_false] at hfield
        rcases hfield with rfl | rfl
        · obtain ⟨_, -, rfl⟩ := Decoder.ok_of_map hv
          exact hs f hf
        · obtain ⟨x, hformat, rfl⟩ := Decoder.ok_of_map hv
          have := h u f (Decoder.nullable_ok hformat f hf)
          omega
    obtain ⟨id, -, he⟩ := bind_ok_iff.mp he
    obtain rfl := Except.ok.inj he
    obtain ⟨_, _ | f⟩ := state
    · exact Nat.zero_le _
    · have := hs f rfl
      simp only [Node.argumentElement, Element.nesting]
      omega

end

theorem Format.nesting_le_of_formatOver {element : Decoder Element}
    (h : ∀ (w : Value) e, element w = .ok e → 6 * e.nesting ≤ w.depth) {v : Value} {f : Format}
    (hf : Decoder.tagged (Node.formatOver element) v = .ok f) : 6 * f.nesting ≤ v.depth + 1 :=
  Format.nesting_le_of_tagged (fun _ _ => Branch.nestingAll_le_of_list fun _ _ =>
    Branch.nesting_le_of_record fun _ _ => Message.nesting_le_of_record h) hf

theorem Element.nesting_le_of_decode {levels : Nat} {v : Value} {e : Element}
    (h : Element.decode levels v = .ok e) : 6 * e.nesting ≤ v.depth := by
  induction levels generalizing v e with
  | zero => simp [Element.decode] at h
  | succ levels ih =>
    obtain ⟨name, decode, hd, w, hw, he⟩ := Decoder.tagged_ok h
    have := Element.nesting_le_of_variant
      (fun w f => Format.nesting_le_of_formatOver fun w e => ih) hd he
    omega

end IcuMessage
