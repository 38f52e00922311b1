/-
Decoding what messages and their parts are encoded as: each node by itself,
whatever its parts are decoded by, and from that the tree
(`Element.decode_encode`), as long as there are levels enough for it.
-/
import IcuMessage.Proofs.Json.Streaming
import IcuMessage.Proofs.Message.Nesting

namespace IcuMessage

open Json

theorem ArgumentId.decode_encode (id : ArgumentId) : ArgumentId.decode id.encode = .ok id := by
  cases id with
  | index position =>
    have hlt := position.toNat_lt
    have hrange : (0 : Int) ≤ position.toNat ∧ (position.toNat : Int) < UInt64.size :=
      ⟨Int.natCast_nonneg _, by exact_mod_cast hlt⟩
    rw [ArgumentId.encode, ArgumentId.decode, if_pos hrange]
    simp
  | name value => rfl

theorem decode_encodeOffset (offset : Option Int64) :
    Decoder.nullable .int64 (encodeOffset offset) = .ok offset := by
  cases offset with
  | none => rfl
  | some n =>
    have hrange : Int64.minValue.toInt ≤ n.toInt ∧ n.toInt ≤ Int64.maxValue.toInt :=
      ⟨n.minValue_le_toInt, n.toInt_le⟩
    simp only [encodeOffset, encodeOption, Decoder.nullable, Decoder.int64, if_pos hrange]
    simp

theorem decode_encodeStyle (style : Option String) :
    Decoder.nullable .string (encodeOption Value.string style) = .ok style := by
  cases style <;> rfl

/-! ## One member -/

namespace Json.Decoder

variable {α β σ : Type} {r : Record Decoder σ α} {name : String} {seen : List String}

theorem member_of_no_field (h : r.field? name = none) (state : List String × σ) (v : Value) :
    member r state (name, v) = .ok state := by
  simp only [member, Record.unseenField?, h, ok_bind]

theorem member_of_seen {field : Field Decoder σ} (h : r.field? name = some field)
    (hs : seen.contains name = true) (state : σ) (v : Value) :
    member r (seen, state) (name, v) = .error (.duplicateField name) := by
  simp only [member, Record.unseenField?, h, hs, if_true, error_bind]

theorem member_of_field {k : β → σ → σ} {decode : Decoder β}
    (h : r.field? name = some ⟨name, k <$> decode⟩) (hs : seen.contains name = false) (state : σ)
    (v : Value) :
    member r (seen, state) (name, v) = (decode v).map fun b => (name :: seen, k b state) := by
  simp only [member, Record.unseenField?, h, hs, Bool.false_eq_true, if_false, ok_bind]
  show ((decode v).map k >>= _) = _
  cases decode v <;> rfl

end Json.Decoder

/-! ## One node -/

namespace Node

theorem decode_message (elements : Decoder (List Element)) (v : Value) :
    Decoder.record (message elements) (.object [("elements", v)]) = elements v := by
  show Decoder.ofMembers _ _ = _
  rw [Decoder.ofMembers, List.foldlM_cons, Decoder.member_of_field rfl rfl]
  cases elements v <;> rfl

theorem decode_branch (value : Decoder Message) (selector : String) (v : Value) :
    Decoder.record (branch .string value) (.object [("selector", .string selector), ("value", v)]) =
      (value v).map (Branch.mk selector) := by
  show Decoder.ofMembers _ _ = _
  rw [Decoder.ofMembers, List.foldlM_cons, Decoder.member_of_field rfl rfl]
  simp only [Decoder.string, map_ok, ok_bind, List.foldlM_cons]
  rw [Decoder.member_of_field rfl rfl]
  cases value v <;> rfl

theorem decode_encodeText (format : Decoder Format) (value : String) :
    Decoder.tagged (element format) (encodeText value) = .ok (.text value) := by
  rw [encodeText, Decoder.tagged_tagFirst (by simp; decide)]
  rfl

theorem decode_encodeArgument (format : Decoder Format) (id : ArgumentId) (v : Value) :
    Decoder.tagged (element format) (encodeArgument id v) =
      (format.nullable v).map (argumentElement id) := by
  have hnamed : (element format).named "argumentElement" =
      .ok (.record (argument ArgumentId.decode (.nullable format))) := rfl
  rw [encodeArgument, Decoder.tagged_tagFirst (by simp; decide), hnamed, ok_bind]
  show Decoder.ofMembers _ _ = _
  rw [Decoder.ofMembers, List.foldlM_cons, Decoder.member_of_field rfl rfl]
  simp only [id.decode_encode, map_ok, ok_bind, List.foldlM_cons]
  rw [Decoder.member_of_field rfl rfl]
  cases format.nullable v <;> rfl

theorem decode_encodeSimple (branches : Decoder (List Branch)) (kind : SimpleKind)
    (style : Option String) :
    Decoder.tagged (format branches) (encodeSimple kind style) = .ok (.simple kind style) := by
  have hstyle := decode_encodeStyle style
  rw [encodeSimple, Decoder.tagged_tagFirst (by simp; decide)]
  obtain ⟨title, hnamed⟩ : ∃ title,
      (format branches).named kind.tag = .ok (format.simple title kind) := by
    cases kind <;> exact ⟨_, rfl⟩
  rw [hnamed, ok_bind]
  show Decoder.ofMembers _ _ = _
  rw [Decoder.ofMembers, List.foldlM_cons, Decoder.member_of_field rfl rfl, hstyle]
  rfl

theorem decode_encodeSelect (branches : Decoder (List Branch)) (offset : Option Int64)
    (items : List Value) : Decoder.tagged (format branches) (encodeSelect offset items) =
      (branches (.array items)).map (.branching .select offset) := by
  have hnamed : (format branches).named "selectFormat" =
      .ok (.record (selectFormat (.nullable .int64) branches)) := rfl
  rw [encodeSelect, Decoder.tagged_tagFirst (by simp; decide), hnamed, ok_bind]
  show Decoder.ofMembers _ _ = _
  rw [Decoder.ofMembers, List.foldlM_cons, Decoder.member_of_field rfl rfl]
  simp only [decode_encodeOffset, map_ok, ok_bind, List.foldlM_cons]
  rw [Decoder.member_of_field rfl rfl]
  cases branches (.array items) <;> rfl

theorem decode_encodePlural (branches : Decoder (List Branch)) (ordinal : Bool)
    (offset : Option Int64) (items : List Value) :
    Decoder.tagged (format branches) (encodePlural ordinal offset items) =
      (branches (.array items)).map (.branching (pluralKind ordinal) offset) := by
  have hnamed : (format branches).named "pluralFormat" =
      .ok (.record (pluralFormat .bool (.nullable .int64) branches)) := rfl
  rw [encodePlural, Decoder.tagged_tagFirst (by simp; decide), hnamed, ok_bind]
  show Decoder.ofMembers _ _ = _
  rw [Decoder.ofMembers, List.foldlM_cons, Decoder.member_of_field rfl rfl]
  simp only [Decoder.bool, map_ok, ok_bind, List.foldlM_cons]
  rw [Decoder.member_of_field rfl rfl]
  simp only [decode_encodeOffset, map_ok, ok_bind]
  rw [Decoder.member_of_field rfl rfl]
  cases branches (.array items) <;> rfl

theorem decode_encodeBranching (branches : Decoder (List Branch)) (kind : BranchKind)
    (offset : Option Int64) (items : List Value) :
    Decoder.tagged (format branches) (encodeBranching kind offset items) =
      (branches (.array items)).map (.branching kind offset) := by
  cases kind with
  | plural => exact decode_encodePlural branches false offset items
  | selectOrdinal => exact decode_encodePlural branches true offset items
  | select => exact decode_encodeSelect branches offset items

end Node

/-! ## Trees -/

/-- A message below an element, its own elements decoded so many levels down. -/
def Message.decode (levels : Nat) : Decoder Message :=
  .record (Node.message (.list (Element.decode levels)))

def Branch.decode (levels : Nat) : Decoder Branch :=
  .record (Node.branch .string (Message.decode levels))

theorem Node.formatOver_decode (levels : Nat) :
    Node.formatOver (Element.decode levels) = Node.format (.list (Branch.decode levels)) := rfl

theorem Json.Decoder.list_cons {α : Type} (item : Decoder α) (v : Value) (vs : List Value) :
    Decoder.list item (.array (v :: vs)) = (do
      let a ← item v
      let as ← Decoder.list item (.array vs)
      .ok (a :: as)) :=
  List.mapM_cons

theorem Format.nullable_encode (decode : Decoder Format) (f : Format) :
    decode.nullable f.encode = (decode f.encode).map some := by
  cases f with
  | simple => rfl
  | branching kind => cases kind <;> rfl

mutual

theorem Element.decode_encode : ∀ {levels : Nat} (e : Element), e.nesting < levels →
    Element.decode levels e.encode = .ok e
  | _ + 1, .text value, _ => Node.decode_encodeText _ value
  | _ + 1, .placeholder id, _ => Node.decode_encodeArgument _ id .null
  | levels + 1, .argument id format, h => by
    have hf := Format.decode_encode format (Nat.le_of_lt_succ h)
    rw [Element.encode, Element.decode, Node.decode_encodeArgument, Format.nullable_encode, hf]
    rfl

theorem Format.decode_encode : ∀ {levels : Nat} (f : Format), f.nesting ≤ levels →
    Decoder.tagged (Node.formatOver (Element.decode levels)) f.encode = .ok f
  | _, .simple kind style, _ => Node.decode_encodeSimple _ kind style
  | levels, .branching kind offset branches, h => by
    rw [Format.encode, Node.formatOver_decode, Node.decode_encodeBranching,
      Branch.decode_encodeAll branches h]
    rfl

theorem Branch.decode_encodeAll : ∀ {levels : Nat} (branches : List Branch),
    Branch.nestingAll branches ≤ levels →
      Decoder.list (Branch.decode levels) (.array (Branch.encodeAll branches)) = .ok branches
  | _, [], _ => rfl
  | levels, ⟨selector, value⟩ :: rest, h => by
    rw [Branch.nestingAll, Nat.max_le] at h
    have hb : Branch.decode levels (Node.encodeBranch selector
        (Node.encodeMessage (Element.encodeAll value))) = .ok ⟨selector, value⟩ := by
      rw [Branch.decode, Node.encodeBranch, Node.decode_branch, Message.decode, Node.encodeMessage,
        Node.decode_message, Element.decode_encodeAll value h.1]
      rfl
    rw [Branch.encodeAll, Decoder.list_cons, hb, Branch.decode_encodeAll rest h.2]
    rfl

theorem Element.decode_encodeAll : ∀ {levels : Nat} (elements : List Element),
    Element.nestingAll elements < levels →
      Decoder.list (Element.decode levels) (.array (Element.encodeAll elements)) = .ok elements
  | _, [], _ => rfl
  | levels, e :: rest, h => by
    rw [Element.nestingAll, Nat.max_lt] at h
    rw [Element.encodeAll, Decoder.list_cons, Element.decode_encode e h.1,
      Element.decode_encodeAll rest h.2]
    rfl

end

theorem Message.decode_encode {levels : Nat} {m : Message} (hn : m.nesting < levels) :
    Message.decode levels (Message.encode m) = .ok m :=
  (Node.decode_message _ _).trans (Element.decode_encodeAll m hn)

theorem Branch.decode_encode {levels : Nat} {b : Branch} (hn : b.value.nesting < levels) :
    Branch.decode levels b.encode = .ok b := by
  rw [Branch.decode, Branch.encode, Node.encodeBranch, Node.decode_branch, Message.decode_encode hn,
    map_ok]
  cases b
  rfl

/-! ## Levels -/

namespace Node

open Decoder (AgreeBelow)

variable {d : Nat}

theorem agreeBelow_message {f g : Decoder (List Element)} (h : AgreeBelow d f g) :
    AgreeBelow (d + 1) (.record (message f)) (.record (message g)) :=
  .record ⟨rfl, rfl, rfl, .cons ⟨rfl, h.map _⟩ .nil⟩

theorem agreeBelow_branch {f g : Decoder Message} (h : AgreeBelow d f g) :
    AgreeBelow (d + 1) (.record (branch .string f)) (.record (branch .string g)) :=
  .record ⟨rfl, rfl, rfl, .cons ⟨rfl, .refl _⟩ (.cons ⟨rfl, h.map _⟩ .nil)⟩

theorem agreeBelow_format {f g : Decoder (List Branch)} (h : AgreeBelow d f g) :
    AgreeBelow (d + 1) (.tagged (format f)) (.tagged (format g)) := by
  have hplural : AgreeBelow (d + 1) (.record (pluralFormat .bool (.nullable .int64) f))
      (.record (pluralFormat .bool (.nullable .int64) g)) :=
    .record ⟨rfl, rfl, rfl,
      .cons ⟨rfl, .refl _⟩ (.cons ⟨rfl, .refl _⟩ (.cons ⟨rfl, h.map _⟩ .nil))⟩
  have hselect : AgreeBelow (d + 1) (.record (selectFormat (.nullable .int64) f))
      (.record (selectFormat (.nullable .int64) g)) :=
    .record ⟨rfl, rfl, rfl, .cons ⟨rfl, .refl _⟩ (.cons ⟨rfl, h.map _⟩ .nil)⟩
  exact .tagged ⟨rfl, .cons ⟨rfl, .refl _⟩ (.cons ⟨rfl, .refl _⟩ (.cons ⟨rfl, .refl _⟩
    (.cons ⟨rfl, hplural⟩ (.cons ⟨rfl, hselect⟩ .nil))))⟩

theorem agreeBelow_element {f g : Decoder Format} (h : AgreeBelow d f g) :
    AgreeBelow (d + 1) (.tagged (element f)) (.tagged (element g)) := by
  have hargument : AgreeBelow (d + 1) (.record (argument ArgumentId.decode (.nullable f)))
      (.record (argument ArgumentId.decode (.nullable g))) :=
    .record ⟨rfl, rfl, rfl, .cons ⟨rfl, .refl _⟩ (.cons ⟨rfl, h.nullable.map _⟩ .nil)⟩
  exact .tagged ⟨rfl, .cons ⟨rfl, .refl _⟩ (.cons ⟨rfl, hargument⟩ .nil)⟩

end Node

/-- How many levels there are makes no difference to values nested less deep. -/
theorem Element.agreeBelow_decode {n a b : Nat} (ha : n ≤ a) (hb : n ≤ b) :
    Decoder.AgreeBelow n (Element.decode a) (Element.decode b) := by
  induction n generalizing a b with
  | zero => exact fun v hv => absurd hv (Nat.not_lt_zero _)
  | succ n ih =>
    obtain ⟨a, rfl⟩ : ∃ k, a = k + 1 := ⟨a - 1, by omega⟩
    obtain ⟨b, rfl⟩ : ∃ k, b = k + 1 := ⟨b - 1, by omega⟩
    have helement := ih (Nat.le_of_succ_le_succ ha) (Nat.le_of_succ_le_succ hb)
    have hmessage := Node.agreeBelow_message helement.list
    have hformat := Node.agreeBelow_format (Node.agreeBelow_branch hmessage).list
    exact (Node.agreeBelow_element hformat).of_le (by omega)

end IcuMessage
