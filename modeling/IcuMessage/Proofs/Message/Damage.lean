/-
Written messages with one node damaged: its tag unknown or missing, a member it
has to have missing, or one of its members there twice. A node that holds the
damaged one fails as it does (`Node.damaged_branch` and the like), since what
stands before is read without an error; so the error names the damage, wherever
in the message it is (`Message.read_damaged`).
-/
import IcuMessage.Proofs.Message.ObjectForms

namespace IcuMessage

open Json

/-! ## Damage -/

/-- The nodes that are told apart by tags. -/
inductive TaggedKind where
  | element
  | format
  deriving DecidableEq

def TaggedKind.tags : TaggedKind → List String
  | element => ["messageTextElement", "argumentElement"]
  | format => ["numberFormat", "dateFormat", "timeFormat", "pluralFormat", "selectFormat"]

theorem TaggedKind.eq_of_mem {a b : TaggedKind} {tag : String} (ha : tag ∈ a.tags)
    (hb : tag ∈ b.tags) : a = b := by
  have hdisjoint : ∀ tag ∈ element.tags, tag ∉ format.tags := by decide
  cases a <;> cases b
  · rfl
  · exact absurd hb (hdisjoint tag ha)
  · exact absurd ha (hdisjoint tag hb)
  · rfl

/-- What may be wrong with a node: its tag is not among those of its kind, it has no tag, it has a
member twice, or it lacks a member. -/
inductive Damage where
  | unknownTag (kind : TaggedKind) (tag : String)
  | untagged
  | doubled (name : String)
  | incomplete (name : String)

namespace Damage

/-- The members that the nodes having them can not do without. -/
def requiredNames : List String :=
  ["elements", "value", "id", "selector", "options"]

def without (name : String) (ms : List (String × Value)) : List (String × Value) :=
  ms.filter fun m => m.1 != name

/-- The members of a node, and what they are when it is damaged. -/
inductive Changes : Damage → List (String × Value) → List (String × Value) → Prop
  | unknownTag {kind : TaggedKind} {name tag : String} {ms : List (String × Value)}
      (hn : name ∈ kind.tags) (ht : tag ∉ kind.tags) : Changes (.unknownTag kind tag)
        ((tagName, .string name) :: ms) ((tagName, .string tag) :: ms)
  | untagged {ms : List (String × Value)} (hm : tagName ∈ ms.map (·.1)) :
      Changes .untagged ms (without tagName ms)
  | doubled {before between after : List (String × Value)} {m : String × Value} :
      Changes (.doubled m.1) (before ++ m :: (between ++ after))
        (before ++ m :: (between ++ m :: after))
  | incomplete {name : String} {ms : List (String × Value)} (hr : name ∈ requiredNames)
      (hm : name ∈ ms.map (·.1)) : Changes (.incomplete name) ms (without name ms)

/-- How the damage is told. -/
def text : Damage → String
  | unknownTag .element tag =>
    "unknown variant `" ++ tag ++ "`, expected `messageTextElement` or `argumentElement`"
  | unknownTag .format tag => "unknown variant `" ++ tag ++ ("`, expected one of " ++
      "`numberFormat`, `dateFormat`, `timeFormat`, `pluralFormat`, `selectFormat`")
  | untagged => "missing field `type`"
  | doubled name => "duplicate field `" ++ name ++ "`"
  | incomplete name => "missing field `" ++ name ++ "`"

def error : Damage → Error
  | unknownTag kind tag => .unknownVariant tag kind.tags
  | untagged => .missingField tagName
  | doubled name => .duplicateField name
  | incomplete name => .missingField name

end Damage

theorem Json.Error.append_inBackticks {before opened : String} (h : before ++ "`" = opened)
    (name : String) : before ++ inBackticks name = opened ++ name ++ "`" := by
  rw [inBackticks, ← h]
  simp only [String.append_assoc]

theorem Json.Error.message_unknownVariant {known : List String} {expected : String}
    (h : "`, expected " ++ alternatives known = expected) (name : String) :
    (Error.unknownVariant name known).message = "unknown variant `" ++ name ++ expected := by
  have hopened : "unknown variant " ++ "`" = "unknown variant `" := by decide
  have hclosed : "`" ++ ", expected " = "`, expected " := by decide
  show "unknown variant " ++ inBackticks name ++ ", expected " ++ alternatives known = _
  rw [append_inBackticks hopened, ← h, ← hclosed]
  simp only [String.append_assoc]

theorem Damage.message_error (d : Damage) : d.error.message = d.text := by
  cases d with
  | unknownTag kind tag => cases kind <;> exact Error.message_unknownVariant (by decide) tag
  | untagged => decide
  | doubled name | incomplete name => exact Error.append_inBackticks (by decide) name

/-- One of the objects in the value is damaged, the rest is as it was. -/
inductive Json.Value.Damaged (d : Damage) : Value → Value → Prop
  | node {ms ms' : List (String × Value)} (h : d.Changes ms ms') :
      Value.Damaged d (.object ms) (.object ms')
  | item {before after : List Value} {v w : Value} (h : Value.Damaged d v w) :
      Value.Damaged d (.array (before ++ v :: after)) (.array (before ++ w :: after))
  | member {before after : List (String × Value)} {key : String} {v w : Value}
      (h : Value.Damaged d v w) : Value.Damaged d (.object (before ++ (key, v) :: after))
        (.object (before ++ (key, w) :: after))

/-- One item of a list is damaged. -/
def Json.Value.DamagedItem (d : Damage) (items items' : List Value) : Prop :=
  ∃ before v w after, items = before ++ v :: after ∧ items' = before ++ w :: after ∧ v.Damaged d w

section

variable {α σ : Type} {d : Damage} {v w : Value} {ms ms' : List (String × Value)}

/-! ## Damaged values -/

theorem Json.Value.Damaged.not_scalar (h : v.Damaged d w) : v.depth ≠ 0 := by
  cases h <;> simp [Value.depth]

theorem Json.Value.Damaged.array_ok {items : List Value} (h : (Value.array items).Damaged d v) :
    ∃ items', v = .array items' ∧ Value.DamagedItem d items items' := by
  cases h with
  | item h => exact ⟨_, rfl, _, _, _, _, rfl, rfl, h⟩

/-- Only the last member of a written node has nodes in it. -/
theorem Json.Value.Damaged.object_ok (scalars : List (String × Value)) {key : String} {x : Value}
    (hs : ∀ m ∈ scalars, m.2.depth = 0)
    (h : (Value.object (scalars ++ [(key, x)])).Damaged d v) :
    (∃ ms, v = .object ms ∧ d.Changes (scalars ++ [(key, x)]) ms) ∨
      ∃ w, v = .object (scalars ++ [(key, w)]) ∧ x.Damaged d w := by
  generalize hms : scalars ++ [(key, x)] = ms at h
  cases h with
  | node h => exact .inl ⟨_, rfl, h⟩
  | @member before after k y w h =>
    rcases List.eq_nil_or_concat after with rfl | ⟨after, last, rfl⟩
    · obtain ⟨rfl, heq⟩ := List.append_inj' hms rfl
      obtain ⟨rfl, rfl⟩ : key = k ∧ x = y := by simpa using heq
      exact .inr ⟨w, rfl, h⟩
    · have hms : scalars ++ [(key, x)] = (before ++ (k, y) :: after) ++ [last] := by simpa using hms
      obtain ⟨rfl, -⟩ := List.append_inj' hms rfl
      have hy := hs (k, y) (List.mem_append_right _ List.mem_cons_self)
      exact absurd hy h.not_scalar

theorem Damage.Changes.mem (h : d.Changes ms ms') :
    ∀ m ∈ ms', m ∈ ms ∨ ∃ s, m.2 = .string s := by
  intro m hm
  cases h with
  | unknownTag hn ht =>
    rcases List.mem_cons.mp hm with rfl | hm
    · exact .inr ⟨_, rfl⟩
    · exact .inl (List.mem_cons_of_mem _ hm)
  | untagged | incomplete => exact .inl (List.mem_of_mem_filter hm)
  | doubled =>
    refine .inl ?_
    simp only [List.mem_append, List.mem_cons] at hm ⊢
    tauto

theorem mem_replaced {before after : List α} (a : α) {b x : α} (h : x ∈ before ++ b :: after) :
    x = b ∨ x ∈ before ++ a :: after := by
  simp only [List.mem_append, List.mem_cons] at h ⊢
  tauto

theorem Json.Value.Damaged.depth_le (h : v.Damaged d w) : w.depth ≤ v.depth := by
  induction h with
  | node h =>
    refine Nat.succ_le_succ (Value.depthMembers_le fun m hm => ?_)
    rcases h.mem m hm with hm | ⟨s, hs⟩
    · exact Value.depth_le_depthMembers hm
    · rw [hs]
      exact Nat.zero_le _
  | @item before after v w _ ih =>
    refine Nat.succ_le_succ (Value.depthItems_le fun x hx => ?_)
    rcases mem_replaced v hx with rfl | hx
    · exact Nat.le_trans ih
        (Value.depth_le_depthItems (List.mem_append_right _ List.mem_cons_self))
    · exact Value.depth_le_depthItems hx
  | @member before after key v w _ ih =>
    refine Nat.succ_le_succ (Value.depthMembers_le fun m hm => ?_)
    rcases mem_replaced (key, v) hm with rfl | hm
    · exact Nat.le_trans ih
        (Value.depth_le_depthMembers (List.mem_append_right _ List.mem_cons_self))
    · exact Value.depth_le_depthMembers hm

theorem Json.Value.Damaged.plain (h : v.Damaged d w) (hv : v.Plain) : w.Plain := by
  induction h with
  | node h =>
    have hv := Value.plainMembers_iff.mp hv
    refine Value.plainMembers_iff.mpr fun m hm => ?_
    rcases h.mem m hm with hm | ⟨s, hs⟩
    · exact hv m hm
    · rw [hs]
      trivial
  | @item before after v w _ ih =>
    have hv := Value.plainItems_iff.mp hv
    refine Value.plainItems_iff.mpr fun x hx => ?_
    rcases mem_replaced v hx with rfl | hx
    · exact ih (hv v (List.mem_append_right _ List.mem_cons_self))
    · exact hv x hx
  | @member before after key v w _ ih =>
    have hv := Value.plainMembers_iff.mp hv
    refine Value.plainMembers_iff.mpr fun m hm => ?_
    rcases mem_replaced (key, v) hm with rfl | hm
    · exact ih (hv (key, v) (List.mem_append_right _ List.mem_cons_self))
    · exact hv m hm

/-! ## One node -/

theorem Json.Tagged.named_of_not_mem {t : Tagged α} {name : String} (h : name ∉ t.names) :
    t.named name = .error (.unknownVariant name t.names) := by
  have hl : t.variants.lookup name = none := by
    refine List.lookup_eq_none_iff.mpr fun p hp => ?_
    exact bne_iff_ne.mpr fun heq => h (heq ▸ List.mem_map_of_mem hp)
  rw [Tagged.named, hl]

namespace Json.Decoder

/-- A field that has been stored stays seen. -/
theorem mem_seen_of_foldlM {r : Record Decoder σ α} {name : String} {s s' : List String × σ}
    (hs : name ∈ s.1) (h : ms.foldlM (member r) s = .ok s') : name ∈ s'.1 := by
  refine foldlM_invariant (fun s : List String × σ => name ∈ s.1) (fun m _ s s' hs h => ?_) hs h
  obtain ⟨-, rfl⟩ | ⟨field, store, -, -, -, rfl⟩ := member_ok_iff.mp h
  · exact hs
  · exact List.mem_cons_of_mem _ hs

theorem ofMembers_doubled {r : Record Decoder σ α} {before between after : List (String × Value)}
    {m : String × Value} {field : Field Decoder σ} (hf : r.field? m.1 = some field) {a : α}
    (h : ofMembers r (before ++ m :: (between ++ after)) = .ok a) :
    ofMembers r (before ++ m :: (between ++ m :: after)) = .error (.duplicateField m.1) := by
  obtain ⟨s, hs, -⟩ := bind_ok_iff.mp h
  rw [List.foldlM_append] at hs
  obtain ⟨t, hbefore, hs⟩ := bind_ok_iff.mp hs
  rw [List.foldlM_cons] at hs
  obtain ⟨u, hm, hs⟩ := bind_ok_iff.mp hs
  rw [List.foldlM_append] at hs
  obtain ⟨x, hbetween, -⟩ := bind_ok_iff.mp hs
  have hu : m.1 ∈ u.1 := by
    obtain ⟨hnone, -⟩ | ⟨_, _, -, -, -, rfl⟩ := member_ok_iff.mp hm
    · simp [hf] at hnone
    · exact List.mem_cons_self
  have hx : x.1.contains m.1 = true := List.contains_iff_mem.mpr (mem_seen_of_foldlM hu hbetween)
  rw [ofMembers, List.foldlM_append, hbefore, ok_bind, List.foldlM_cons, hm, ok_bind,
    List.foldlM_append, hbetween, ok_bind, List.foldlM_cons, member_of_seen hf hx, error_bind,
    error_bind]

/-- What a damaged record is refused for, given what it is refused for without a member it needs. -/
theorem record_changes {r : Record Decoder σ α} {a : α} (hok : record r (.object ms) = .ok a)
    (hfields : ∀ m ∈ ms, ∃ field, r.field? m.1 = some field) (htag : tagName ∉ ms.map (·.1))
    (hrequired : ∀ name ∈ Damage.requiredNames, name ∈ ms.map (·.1) →
      record r (.object (Damage.without name ms)) = .error (.missingField name))
    (h : d.Changes ms ms') : record r (.object ms') = .error d.error := by
  cases h with
  | unknownTag => simp at htag
  | untagged hm => exact absurd hm htag
  | @doubled before between after m =>
    obtain ⟨field, hf⟩ := hfields m (List.mem_append_right _ List.mem_cons_self)
    exact ofMembers_doubled hf hok
  | incomplete hr hm => exact hrequired _ hr hm

theorem tagged_doubledTag (t : Tagged α) {name : String} {decode : Decoder α}
    (hn : t.named name = .ok decode) {between after : List (String × Value)}
    (hb : ∀ m ∈ between, m.1 ≠ tagName) :
    tagged t (.object ((tagName, .string name) :: (between ++ (tagName, .string name) :: after))) =
      .error (.duplicateField tagName) := by
  have hfirst : tagMember t (none, []) (tagName, .string name) = .ok (some decode, []) := by
    rw [tagMember, if_pos rfl, Tagged.ofTag, hn]
    rfl
  rw [tagged, List.foldlM_cons, hfirst, ok_bind, List.foldlM_append, foldlM_tagMember hb, ok_bind,
    List.foldlM_cons, tagMember, if_pos rfl]
  rfl

theorem tagged_untagged (t : Tagged α) (h : ∀ m ∈ ms, m.1 ≠ tagName) :
    tagged t (.object ms) = .error (.missingField tagName) := by
  rw [tagged, foldlM_tagMember h]
  rfl

theorem tagged_changes (kind : TaggedKind) (r : Record Decoder σ α) {t : Tagged α}
    (ht : t.names = kind.tags) {name : String} (hn : t.named name = .ok (record r)) {a : α}
    (hok : tagged t (.object ((tagName, .string name) :: ms)) = .ok a)
    (hfields : ∀ m ∈ ms, ∃ field, r.field? m.1 = some field) (htag : tagName ∉ ms.map (·.1))
    (hrequired : ∀ name ∈ Damage.requiredNames, name ∈ ms.map (·.1) →
      record r (.object (Damage.without name ms)) = .error (.missingField name))
    (h : d.Changes ((tagName, .string name) :: ms) ms') :
    tagged t (.object ms') = .error d.error := by
  have hms : ∀ m ∈ ms, m.1 ≠ tagName := fun m hm heq => htag (heq ▸ List.mem_map_of_mem hm)
  rw [tagged_tagFirst hms, hn, ok_bind] at hok
  generalize hfull : (tagName, Value.string name) :: ms = full at h
  cases h with
  | @unknownTag kind' name' tag _ hn' ht' =>
    obtain ⟨⟨-, rfl⟩, rfl⟩ : (tagName = tagName ∧ name = name') ∧ ms = _ := by simpa using hfull
    have hmem : name ∈ kind.tags := ht ▸ List.mem_map_of_mem (Tagged.mem_of_named hn)
    obtain rfl := TaggedKind.eq_of_mem hmem hn'
    rw [tagged_tagFirst hms, Tagged.named_of_not_mem (ht ▸ ht'), ht]
    rfl
  | untagged hm => exact tagged_untagged t fun m hm => by simpa using (List.mem_filter.mp hm).2
  | @doubled before between after m =>
    cases before with
    | nil =>
      obtain ⟨rfl, rfl⟩ := List.cons.inj hfull
      exact tagged_doubledTag t hn fun m hm => hms m (List.mem_append_left _ hm)
    | cons first before =>
      obtain ⟨rfl, rfl⟩ : _ = first ∧ ms = before ++ m :: (between ++ after) :=
        List.cons.inj hfull
      have hms' : ∀ x ∈ before ++ m :: (between ++ m :: after), x.1 ≠ tagName := by
        intro x hx
        refine hms x ?_
        simp only [List.mem_append, List.mem_cons] at hx ⊢
        tauto
      rw [List.cons_append, tagged_tagFirst hms', hn, ok_bind]
      exact record_changes hok hfields htag hrequired .doubled
  | @incomplete name' _ hr hm =>
    subst hfull
    have hne : name' ≠ tagName := by
      rintro rfl
      exact absurd hr (by decide)
    have hwithout : Damage.without name' ((tagName, .string name) :: ms) =
        (tagName, .string name) :: Damage.without name' ms := by
      simp [Damage.without, hne.symm]
    have hms' : ∀ m ∈ Damage.without name' ms, m.1 ≠ tagName := fun m hm =>
      hms m (List.mem_of_mem_filter hm)
    have hm : name' ∈ ms.map (·.1) := by simpa [hne] using hm
    rw [hwithout, tagged_tagFirst hms', hn, ok_bind]
    exact hrequired name' hr hm

end Json.Decoder

/-! ### Nodes -/

namespace Node

theorem damaged_message {elements : Decoder (List Element)} {items : List Value} {es : List Element}
    (hok : elements (.array items) = .ok es)
    (hitems : ∀ items', Value.DamagedItem d items items' →
      elements (.array items') = .error d.error)
    (h : (encodeMessage items).Damaged d v) :
    Decoder.record (message elements) v = .error d.error := by
  rcases h.object_ok [] nofun with ⟨ms, rfl, hc⟩ | ⟨w, rfl, hw⟩
  · refine Decoder.record_changes ((decode_message elements _).trans hok) ?_ (by simp; decide) ?_ hc
    · exact List.forall_mem_singleton.mpr ⟨_, rfl⟩
    · intro name _ hm
      obtain rfl := List.mem_singleton.mp hm
      rfl
  · obtain ⟨items', rfl, hi⟩ := hw.array_ok
    exact (decode_message elements _).trans (hitems items' hi)

theorem damaged_branch {value : Decoder Message} {selector : String} {x : Value} {m : Message}
    (hok : value x = .ok m) (hx : ∀ w, x.Damaged d w → value w = .error d.error)
    (h : (encodeBranch selector x).Damaged d v) :
    Decoder.record (branch .string value) v = .error d.error := by
  rcases h.object_ok [("selector", .string selector)] (by simp [Value.depth])
    with ⟨ms, rfl, hc⟩ | ⟨w, rfl, hw⟩
  · refine Decoder.record_changes (a := ⟨selector, m⟩) ?_ ?_ (by simp; decide) ?_ hc
    · exact (decode_branch value selector x).trans (by rw [hok, map_ok])
    · exact List.forall_mem_cons.mpr ⟨⟨_, rfl⟩, List.forall_mem_singleton.mpr ⟨_, rfl⟩⟩
    · intro name _ hm
      have hm : name = "selector" ∨ name = "value" := by simpa using hm
      rcases hm with rfl | rfl
      · show Decoder.ofMembers _ [("value", x)] = _
        rw [Decoder.ofMembers, List.foldlM_cons, Decoder.member_of_field rfl rfl, hok]
        rfl
      · rfl
  · exact (decode_branch value selector w).trans (by rw [hx w hw, map_error])

theorem damaged_text {format : Decoder Format} {value : String}
    (h : (encodeText value).Damaged d v) : Decoder.tagged (element format) v = .error d.error := by
  rcases h.object_ok [(tagName, .string "messageTextElement")] (by simp [Value.depth])
    with ⟨ms, rfl, hc⟩ | ⟨w, rfl, hw⟩
  · refine Decoder.tagged_changes .element (text .string) rfl rfl
      (decode_encodeText format value) ?_ (by simp; decide) ?_ hc
    · exact List.forall_mem_singleton.mpr ⟨_, rfl⟩
    · intro name _ hm
      obtain rfl := List.mem_singleton.mp hm
      rfl
  · exact absurd rfl hw.not_scalar

theorem damaged_argument {format : Decoder Format} {id : ArgumentId} {x : Value} {f : Option Format}
    (hok : format.nullable x = .ok f)
    (hx : ∀ w, x.Damaged d w → format.nullable w = .error d.error)
    (h : (encodeArgument id x).Damaged d v) :
    Decoder.tagged (element format) v = .error d.error := by
  have hdecode := decode_encodeArgument format id x
  rw [hok, map_ok] at hdecode
  rcases h.object_ok [(tagName, .string "argumentElement"), ("id", id.encode)]
    (by simp [Value.depth, id.depth_encode]) with ⟨ms, rfl, hc⟩ | ⟨w, rfl, hw⟩
  · refine Decoder.tagged_changes .element (argument ArgumentId.decode (.nullable format)) rfl rfl
      hdecode ?_ (by simp; decide) ?_ hc
    · exact List.forall_mem_cons.mpr ⟨⟨_, rfl⟩, List.forall_mem_singleton.mpr ⟨_, rfl⟩⟩
    · intro name hr hm
      have hm : name = "id" ∨ name = "format" := by simpa using hm
      rcases hm with rfl | rfl
      · show Decoder.ofMembers _ [("format", x)] = _
        rw [Decoder.ofMembers, List.foldlM_cons, Decoder.member_of_field rfl rfl, hok]
        rfl
      · exact absurd hr (by decide)
  · exact (decode_encodeArgument format id w).trans (by rw [hx w hw, map_error])

theorem damaged_simple {branches : Decoder (List Branch)} {kind : SimpleKind}
    {style : Option String} (h : (encodeSimple kind style).Damaged d v) :
    Decoder.tagged (format branches) v = .error d.error := by
  obtain ⟨title, hnamed⟩ : ∃ title,
      (format branches).named kind.tag = .ok (format.simple title kind) := by
    cases kind <;> exact ⟨_, rfl⟩
  rcases h.object_ok [(tagName, .string kind.tag)] (by simp [Value.depth])
    with ⟨ms, rfl, hc⟩ | ⟨w, rfl, hw⟩
  · refine Decoder.tagged_changes .format (simpleFormat title kind (.nullable .string)) rfl hnamed
      (decode_encodeSimple branches kind style) ?_ (by simp; decide) ?_ hc
    · exact List.forall_mem_singleton.mpr ⟨_, rfl⟩
    · intro name hr hm
      obtain rfl : name = "style" := by simpa using hm
      exact absurd hr (by decide)
  · exact absurd (depth_encodeOption (fun _ => rfl) style) hw.not_scalar

section

variable {branches : Decoder (List Branch)} {offset : Option Int64} {items : List Value}
  {bs : List Branch}

theorem damaged_select (hok : branches (.array items) = .ok bs)
    (hitems : ∀ items', Value.DamagedItem d items items' →
      branches (.array items') = .error d.error)
    (h : (encodeSelect offset items).Damaged d v) :
    Decoder.tagged (format branches) v = .error d.error := by
  have hoffset : (encodeOffset offset).depth = 0 := depth_encodeOption (fun _ => rfl) offset
  have hdecode := decode_encodeSelect branches offset items
  rw [hok, map_ok] at hdecode
  rcases h.object_ok [(tagName, .string "selectFormat"), ("offset", encodeOffset offset)]
    (by simp [Value.depth, hoffset]) with ⟨ms, rfl, hc⟩ | ⟨w, rfl, hw⟩
  · refine Decoder.tagged_changes .format (selectFormat (.nullable .int64) branches) rfl rfl
      hdecode ?_ (by simp; decide) ?_ hc
    · exact List.forall_mem_cons.mpr ⟨⟨_, rfl⟩, List.forall_mem_singleton.mpr ⟨_, rfl⟩⟩
    · intro name hr hm
      have hm : name = "offset" ∨ name = "options" := by simpa using hm
      rcases hm with rfl | rfl
      · exact absurd hr (by decide)
      · show Decoder.ofMembers _ [("offset", encodeOffset offset)] = _
        rw [Decoder.ofMembers, List.foldlM_cons, Decoder.member_of_field rfl rfl,
          decode_encodeOffset]
        rfl
  · obtain ⟨items', rfl, hi⟩ := hw.array_ok
    exact (decode_encodeSelect branches offset items').trans (by rw [hitems items' hi, map_error])

theorem damaged_plural {ordinal : Bool} (hok : branches (.array items) = .ok bs)
    (hitems : ∀ items', Value.DamagedItem d items items' →
      branches (.array items') = .error d.error)
    (h : (encodePlural ordinal offset items).Damaged d v) :
    Decoder.tagged (format branches) v = .error d.error := by
  have hoffset : (encodeOffset offset).depth = 0 := depth_encodeOption (fun _ => rfl) offset
  have hdecode := decode_encodePlural branches ordinal offset items
  rw [hok, map_ok] at hdecode
  rcases h.object_ok [(tagName, .string "pluralFormat"), ("ordinal", .bool ordinal),
      ("offset", encodeOffset offset)]
    (by simp [Value.depth, hoffset]) with ⟨ms, rfl, hc⟩ | ⟨w, rfl, hw⟩
  · refine Decoder.tagged_changes .format (pluralFormat .bool (.nullable .int64) branches) rfl rfl
      hdecode ?_ (by simp; decide) ?_ hc
    · exact List.forall_mem_cons.mpr ⟨⟨_, rfl⟩,
        List.forall_mem_cons.mpr ⟨⟨_, rfl⟩, List.forall_mem_singleton.mpr ⟨_, rfl⟩⟩⟩
    · intro name hr hm
      have hm : name = "ordinal" ∨ name = "offset" ∨ name = "options" := by simpa using hm
      rcases hm with rfl | rfl | rfl
      · exact absurd hr (by decide)
      · exact absurd hr (by decide)
      · show Decoder.ofMembers _ [("ordinal", .bool ordinal), ("offset", encodeOffset offset)] = _
        rw [Decoder.ofMembers, List.foldlM_cons, Decoder.member_of_field rfl rfl]
        simp only [Decoder.bool, map_ok, ok_bind, List.foldlM_cons]
        rw [Decoder.member_of_field rfl rfl, decode_encodeOffset]
        rfl
  · obtain ⟨items', rfl, hi⟩ := hw.array_ok
    exact (decode_encodePlural branches ordinal offset items').trans
      (by rw [hitems items' hi, map_error])

theorem damaged_branching {kind : BranchKind} (hok : branches (.array items) = .ok bs)
    (hitems : ∀ items', Value.DamagedItem d items items' →
      branches (.array items') = .error d.error)
    (h : (encodeBranching kind offset items).Damaged d v) :
    Decoder.tagged (format branches) v = .error d.error := by
  cases kind with
  | plural | selectOrdinal => exact damaged_plural hok hitems h
  | select => exact damaged_select hok hitems h

end

end Node

/-! ## Trees -/

/-- A list fails as its damaged item does, since the items before are read. -/
theorem Json.Decoder.list_damaged {item : Decoder α} {encode : α → Value} {as : List α}
    {items : List Value} (hok : ∀ a ∈ as, item (encode a) = .ok a)
    (hbad : ∀ a ∈ as, ∀ w, (encode a).Damaged d w → item w = .error d.error)
    (h : Value.DamagedItem d (as.map encode) items) :
    Decoder.list item (.array items) = .error d.error := by
  obtain ⟨before, v, w, after, heq, rfl, hw⟩ := h
  induction as generalizing before with
  | nil => simp at heq
  | cons a as ih =>
    rw [List.map_cons] at heq
    cases before with
    | nil =>
      obtain ⟨rfl, -⟩ := List.cons.inj heq
      rw [List.nil_append, Decoder.list_cons, hbad a List.mem_cons_self w hw, error_bind]
    | cons first before =>
      obtain ⟨rfl, htail⟩ : encode a = first ∧ as.map encode = before ++ v :: after :=
        List.cons.inj heq
      have hrest := ih (fun a ha => hok a (List.mem_cons_of_mem _ ha))
        (fun a ha => hbad a (List.mem_cons_of_mem _ ha)) before htail
      rw [List.cons_append, Decoder.list_cons, hok a List.mem_cons_self, ok_bind, hrest, error_bind]

theorem Json.Decoder.list_encoded {item : Decoder α} {encode : α → Value} {as : List α}
    (hok : ∀ a ∈ as, item (encode a) = .ok a) :
    Decoder.list item (.array (as.map encode)) = .ok as := by
  induction as with
  | nil => rfl
  | cons a as ih =>
    rw [List.map_cons, Decoder.list_cons, hok a List.mem_cons_self, ok_bind,
      ih fun a ha => hok a (List.mem_cons_of_mem _ ha)]
    rfl

theorem Json.Decoder.nullable_damaged {decode : Decoder α} (h : v.Damaged d w) :
    decode.nullable w = (decode w).map some := by
  cases h <;> rfl

theorem Element.encodeAll_eq_map (es : List Element) :
    Element.encodeAll es = es.map Element.encode := by
  induction es with
  | nil => rfl
  | cons e es ih => rw [Element.encodeAll, ih, List.map_cons]

theorem Branch.encodeAll_eq_map (bs : List Branch) :
    Branch.encodeAll bs = bs.map Branch.encode := by
  induction bs with
  | nil => rfl
  | cons b bs ih => cases b; rw [Branch.encodeAll, ih]; rfl

theorem Message.record_damaged {item : Decoder Element} {m : Message}
    (hok : ∀ e ∈ m, item e.encode = .ok e)
    (hbad : ∀ e ∈ m, ∀ w, e.encode.Damaged d w → item w = .error d.error)
    (h : (Message.encode m).Damaged d v) :
    Decoder.record (Node.message (.list item)) v = .error d.error := by
  rw [Message.encode, Element.encodeAll_eq_map] at h
  exact Node.damaged_message (Decoder.list_encoded hok)
    (fun _ hitems => Decoder.list_damaged hok hbad hitems) h

/-- By induction on the levels, since what lies in an option is one level further down. -/
theorem Element.decode_damaged {levels : Nat} (e : Element) {v : Value} (hn : e.nesting < levels)
    (h : e.encode.Damaged d v) : Element.decode levels v = .error d.error := by
  induction levels generalizing e v with
  | zero => exact absurd hn (Nat.not_lt_zero _)
  | succ levels ih =>
    have hmessage : ∀ m : Message, m.nesting < levels → ∀ w, (Message.encode m).Damaged d w →
        Message.decode levels w = .error d.error := by
      intro m hm w hw
      have he : ∀ e ∈ m, e.nesting < levels := fun e he =>
        Nat.lt_of_le_of_lt (Element.nesting_le_nestingAll he) hm
      exact Message.record_damaged (fun e hmem => Element.decode_encode e (he e hmem))
        (fun e hmem w => ih e (he e hmem)) hw
    have hformat : ∀ f : Format, f.nesting ≤ levels → ∀ w, f.encode.Damaged d w →
        Decoder.tagged (Node.formatOver (Element.decode levels)) w = .error d.error := by
      intro f hf w hw
      cases f with
      | simple kind style => exact Node.damaged_simple hw
      | branching kind offset branches =>
        have hb : ∀ b ∈ branches, b.value.nesting < levels := fun b hb =>
          Nat.lt_of_lt_of_le (Branch.nesting_lt_nestingAll hb) hf
        rw [Format.encode, Branch.encodeAll_eq_map] at hw
        refine Node.damaged_branching (Decoder.list_encoded fun b hmem =>
          Branch.decode_encode (hb b hmem)) (fun items hitems => ?_) hw
        refine Decoder.list_damaged (fun b hmem => Branch.decode_encode (hb b hmem)) ?_ hitems
        intro b hmem x hx
        exact Node.damaged_branch (Message.decode_encode (hb b hmem))
          (hmessage b.value (hb b hmem)) hx
    cases e with
    | text value => exact Node.damaged_text h
    | placeholder id =>
      exact Node.damaged_argument rfl (fun w hw => absurd rfl hw.not_scalar) h
    | argument id format =>
      have hn : format.nesting ≤ levels := Nat.le_of_lt_succ hn
      refine Node.damaged_argument (f := some format) ?_ (fun w hw => ?_) h
      · rw [Format.nullable_encode, Format.decode_encode format hn, map_ok]
      · rw [Decoder.nullable_damaged hw, hformat format hn w hw, map_error]

/-! ## Texts -/

theorem Json.Value.Damaged.isNumber (h : v.Damaged d w) : w.isNumber = false := by
  cases h <;> rfl

/-- A damaged element has a name for a tag, or none. -/
theorem Element.tag_damaged {e : Element} (h : e.encode.Damaged d v) :
    ∀ tag ∈ v.tag?, tag.isNumber = false := by
  obtain ⟨name, ms, -, heq, hms, -⟩ := e.encode_tagFirst fun _ => fail .nestingTooDeep
  have htag : ∀ x, (tagName, x) ∈ (tagName, Value.string name) :: ms → x.isNumber = false := by
    intro x hx
    rcases List.mem_cons.mp hx with hx | hx
    · obtain rfl := (Prod.mk.inj hx).2
      rfl
    · exact absurd rfl (hms _ hx)
  rw [heq] at h
  generalize (tagName, Value.string name) :: ms = full at h htag
  intro tag ht
  cases h with
  | node hc =>
    obtain ⟨before, after, rfl, -⟩ := List.lookup_eq_some_iff.mp ht
    rcases hc.mem _ (List.mem_append_right _ List.mem_cons_self) with hm | ⟨s, hs⟩
    · exact htag tag hm
    · obtain rfl : tag = .string s := hs
      rfl
  | @member before after key x w hw =>
    obtain ⟨before', after', heq, -⟩ := List.lookup_eq_some_iff.mp ht
    have hm : (tagName, tag) ∈ before ++ (key, w) :: after := by
      rw [heq]
      exact List.mem_append_right _ List.mem_cons_self
    rcases mem_replaced (key, x) hm with hm | hm
    · obtain ⟨-, rfl⟩ := Prod.mk.inj hm
      exact hw.isNumber
    · exact htag tag hm

theorem Message.streamed_damaged {m : Message} {v : Value} (hn : m.nesting ≤ 20)
    (h : (Message.encode m).Damaged d v) : Message.streamed 124 v = .error d.error := by
  have hd := m.depth_encode_le
  have hitem : ∀ e ∈ m, e.encode.depth ≤ 125 := by
    intro e he
    have hle : e.encode.depth ≤ Value.depthItems (Element.encodeAll m) :=
      Value.depth_le_depthItems (Element.encodeAll_eq_map m ▸ List.mem_map_of_mem he)
    rw [Message.depth_encode] at hd
    omega
  obtain ⟨ms, rfl⟩ : ∃ ms, v = .object ms := by
    rcases h.object_ok [] nofun with ⟨ms, rfl, -⟩ | ⟨w, rfl, -⟩ <;> exact ⟨_, rfl⟩
  refine Message.record_damaged (fun e he => ?_) (fun e he w hw => ?_) h
  · rw [Element.streamed_encode, if_pos (hitem e he)]
  · have hw' := Nat.le_trans hw.depth_le (hitem e he)
    have hlevels : w.depth < max (w.depth + 1) (e.nesting + 1) := Nat.le_max_left _ _
    rw [Element.streamed_eq_decode hw' hlevels (Element.tag_damaged hw)]
    exact Element.decode_damaged e (Nat.le_max_right _ _) hw

/-- **A written message with one node damaged is refused with an error that names the damage**,
whichever node it is. -/
theorem Message.read_damaged {m : Message} {v : Value} (hn : m.nesting ≤ 20)
    (h : (Message.encode m).Damaged d v) :
    ∃ cause, cause.message = d.text ∧
      Failure.malformedMessage cause = "malformed message: " ++ d.text ∧
      Message.read (String.ofList v.write) = .error cause ∧
      ∀ source : String, v.Text source.toList → Message.read source = .error cause := by
  have hread : ∀ source : String, v.Text source.toList → Message.read source = .error d.error := by
    intro source ht
    have hd : v.depth ≤ 127 := by
      have := m.depth_encode_le
      have := h.depth_le
      omega
    obtain ⟨rest, hr, hb⟩ := ht.spells hd [] .nil
    rw [List.append_nil] at hr
    rw [Message.read_of_readValue hr hb, Message.streamed_damaged hn h]
  have hplain : v.Plain := h.plain ⟨Element.plain_encodeAll m, trivial⟩
  have hmalformed := congrArg ("malformed message: " ++ ·) d.message_error
  refine ⟨d.error, d.message_error, hmalformed, ?_, hread⟩
  exact hread _ (by rw [String.toList_ofList]; exact text_write hplain)

end

/-- `Message.oneOption`, the tag of the text in the option misspelt. -/
def Message.misspeltText : Value :=
  Node.encodeMessage [Node.encodeArgument (.name "n") (Node.encodePlural false none
    [Node.encodeBranch "one" (Node.encodeMessage
      [.object [(tagName, .string "text"), ("value", .string "a")]])])]

theorem Message.damaged_misspeltText :
    (Message.encode Message.oneOption).Damaged (.unknownTag .element "text")
      Message.misspeltText := by
  have htext : (Node.encodeText "a").Damaged (.unknownTag .element "text")
      (.object [(tagName, .string "text"), ("value", .string "a")]) :=
    .node (.unknownTag (by decide) (by decide))
  have hmessage : ∀ {v w : Value} {d : Damage}, v.Damaged d w →
      (Node.encodeMessage [v]).Damaged d (Node.encodeMessage [w]) := fun h =>
    @Value.Damaged.member _ [] [] _ _ _ (@Value.Damaged.item _ [] [] _ _ h)
  have hbranch := @Value.Damaged.member _ [("selector", .string "one")] [] "value" _ _
    (hmessage htext)
  have hformat := @Value.Damaged.member _ [(tagName, .string "pluralFormat"),
    ("ordinal", .bool false), ("offset", .null)] [] "options" _ _
    (@Value.Damaged.item _ [] [] _ _ hbranch)
  exact hmessage (@Value.Damaged.member _ [(tagName, .string "argumentElement"),
    ("id", .string "n")] [] "format" _ _ hformat)

theorem Message.read_damaged_misspelt :
    Message.oneOption.nesting ≤ 20 ∧
      (Message.encode Message.oneOption).Damaged (.unknownTag .element "text")
        Message.misspeltText ∧
      ∃ cause, cause.message =
          "unknown variant `text`, expected `messageTextElement` or `argumentElement`" ∧
        Message.read (String.ofList Message.misspeltText.write) = .error cause := by
  have hn : Message.oneOption.nesting ≤ 20 := by decide
  obtain ⟨cause, hcause, -, hread, -⟩ := Message.read_damaged hn Message.damaged_misspeltText
  exact ⟨hn, Message.damaged_misspeltText, cause, hcause.trans (by decide), hread⟩

end IcuMessage
