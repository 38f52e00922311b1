/-
What a success says of the parts of a node, in either of its forms: a part that
a field is for has been decoded as that field's value (`Decoder.record_part_ok`),
and the tag has told the variant that the rest has been decoded as
(`Decoder.tagged_tag_ok`). A tag is a name of the variants or, since what stands
below another tagged node is decoded from a value, the number of a name's place
(`Tagged.ofTag_index`).
-/
import IcuMessage.Proofs.Json.MemberOrder
import IcuMessage.Proofs.Json.Streaming

namespace IcuMessage.Json

variable {ε α β σ : Type}

/-- A part of a node: the member of the name in an object, the item at the place in an array. -/
def Value.part? (name : String) (index : Nat) : Value → Option Value
  | .object members => members.lookup name
  | .array items => items[index]?
  | _ => none

theorem mem_of_lookup {ms : List (String × Value)} {name : String} {v : Value}
    (h : ms.lookup name = some v) : (name, v) ∈ ms := by
  obtain ⟨before, after, rfl, -⟩ := List.lookup_eq_some_iff.mp h
  exact List.mem_append_right _ List.mem_cons_self

theorem lookup_filter {ms : List (String × Value)} {p : String × Value → Bool} {name : String}
    (h : ∀ m, m.1 = name → p m = true) : (ms.filter p).lookup name = ms.lookup name := by
  induction ms with
  | nil => rfl
  | cons m ms ih =>
    obtain ⟨key, v⟩ := m
    by_cases hk : key = name
    · subst hk
      rw [List.filter_cons_of_pos (h _ rfl), List.lookup_cons_self, List.lookup_cons_self]
    · have hlookup : ((key, v) :: ms).lookup name = ms.lookup name := by
        rw [List.lookup_cons, beq_false_of_ne (Ne.symm hk)]
      rw [hlookup, ← ih, List.filter_cons]
      split
      · rw [List.lookup_cons, beq_false_of_ne (Ne.symm hk)]
      · rfl

theorem lookup_of_getElem? {entries : List (String × β)} (hn : (entries.map (·.1)).Nodup)
    {index : Nat} {entry : String × β} (h : entries[index]? = some entry) :
    entries.lookup entry.1 = some entry.2 := by
  induction entries generalizing index with
  | nil => simp at h
  | cons first entries ih =>
    obtain ⟨hfirst, hrest⟩ := List.nodup_cons.mp hn
    cases index with
    | zero =>
      obtain rfl : first = entry := by simpa using h
      exact List.lookup_cons_self
    | succ index =>
      have h : entries[index]? = some entry := by simpa using h
      have hmem : entry.1 ∈ entries.map (·.1) := List.mem_map_of_mem (List.mem_of_getElem? h)
      have hne : entry.1 ≠ first.1 := fun heq => hfirst (by rwa [heq] at hmem)
      rw [List.lookup_cons, beq_false_of_ne hne]
      exact ih hrest h

theorem ok_of_foldlM {step : σ → β → Except ε σ} {as : List β} {s s' : σ}
    (h : as.foldlM step s = .ok s') : ∀ a ∈ as, ∃ t t', step t a = .ok t' := by
  induction as generalizing s with
  | nil => simp
  | cons a as ih =>
    rw [List.foldlM_cons] at h
    obtain ⟨t, ha, h⟩ := bind_ok_iff.mp h
    exact List.forall_mem_cons.mpr ⟨⟨s, t, ha⟩, ih h⟩

theorem ok_of_mapM {f : α → Except ε β} {as : List α} {bs : List β} (h : as.mapM f = .ok bs) :
    ∀ a ∈ as, ∃ b, f a = .ok b := by
  induction as generalizing bs with
  | nil => simp
  | cons a as ih =>
    rw [List.mapM_cons] at h
    obtain ⟨b, hb, h⟩ := bind_ok_iff.mp h
    obtain ⟨bs, hbs, -⟩ := bind_ok_iff.mp h
    exact List.forall_mem_cons.mpr ⟨⟨b, hb⟩, ih hbs⟩

/-! ## Tags -/

namespace Tagged

variable {t : Tagged α}

/-- The number of a place tells the same variant as the name there. -/
theorem ofTag_index (hn : t.names.Nodup) {index : Nat} {name : String}
    (h : t.names[index]? = some name) : t.ofTag (.int index) = t.ofTag (.string name) := by
  obtain ⟨variant, hv, rfl⟩ :
      ∃ variant, t.variants[index]? = some variant ∧ variant.1 = name := by
    simpa only [names, List.getElem?_map, Option.map_eq_some_iff] using h
  show t.numbered index = t.named _
  rw [numbered, named, hv, lookup_of_getElem? hn hv]

/-- A tag is a name, or the number of one's place. -/
theorem ofTag_ok {tag : Value} {decode : Decoder α} (h : t.ofTag tag = .ok decode) :
    ∃ name ∈ t.names, tag = .string name ∨
      ∃ index : Nat, t.names[index]? = some name ∧ tag = .int index := by
  unfold ofTag at h
  split at h
  · rename_i name
    exact ⟨name, List.mem_map_of_mem (f := (·.1)) (mem_of_named h), .inl rfl⟩
  · rename_i index
    unfold numbered at h
    split at h
    · rename_i name f hi
      have hname : t.names[index]? = some name := by simp [names, hi]
      exact ⟨name, List.mem_of_getElem? hname, .inr ⟨index, hname, rfl⟩⟩
    · simp at h
  · simp at h

end Tagged

namespace Decoder

/-! ## Records -/

theorem storeItems_item_ok {fields : List (Field Decoder σ)} {items : List Value} {state state' : σ}
    (h : storeItems fields items state = .ok state') {index : Nat} {field : Field Decoder σ}
    {item : Value} (hf : fields[index]? = some field) (hi : items[index]? = some item) :
    ∃ store, field.value item = .ok store := by
  induction fields generalizing items state index with
  | nil => simp at hf
  | cons first fields ih =>
    cases items with
    | nil => simp at hi
    | cons v items =>
      obtain ⟨store, hv, h⟩ := bind_ok_iff.mp h
      cases index with
      | zero =>
        obtain rfl : first = field := by simpa using hf
        obtain rfl : v = item := by simpa using hi
        exact ⟨store, hv⟩
      | succ index => exact ih h (by simpa using hf) (by simpa using hi)

/-- The part of a record that a field is for is what the field has its value from. -/
theorem record_part_ok {r : Record Decoder σ α} {v : Value} {a : α} (h : record r v = .ok a)
    (index : Nat) {name : String} {value : Decoder (σ → σ)}
    (hi : r.fields[index]? = some ⟨name, value⟩) (hf : r.field? name = some ⟨name, value⟩)
    {w : Value} (hw : v.part? name index = some w) : ∃ store, value w = .ok store := by
  cases v with
  | object ms =>
    obtain ⟨state, hms, -⟩ := bind_ok_iff.mp h
    obtain ⟨s, s', hmember⟩ := ok_of_foldlM hms _ (mem_of_lookup hw)
    rcases member_ok_iff.mp hmember with ⟨hnone, -⟩ | ⟨_, store, hsome, -, hstore, -⟩
    · simp [hf] at hnone
    · obtain rfl := Option.some.inj (hf.symm.trans hsome)
      exact ⟨store, hstore⟩
  | array items =>
    obtain ⟨state, hitems, -⟩ := bind_ok_iff.mp h
    exact storeItems_item_ok hitems hi hw
  | _ => simp [record] at h

theorem storeItems_parts_ok (I : σ → Prop) {fields : List (Field Decoder σ)} {items : List Value}
    (hf : ∀ (index : Nat) (field : Field Decoder σ) item store, fields[index]? = some field →
      items[index]? = some item → field.value item = .ok store →
      ∀ state, I state → I (store state))
    {state state' : σ} (hs : I state) (h : storeItems fields items state = .ok state') :
    I state' := by
  induction fields generalizing items state with
  | nil =>
    obtain rfl : state = state' := by simpa [storeItems] using h
    exact hs
  | cons field fields ih =>
    cases items with
    | nil =>
      obtain rfl : state = state' := by simpa [storeItems] using h
      exact hs
    | cons item items =>
      obtain ⟨store, hv, h⟩ := bind_ok_iff.mp h
      refine ih (fun index field item store hi hw => ?_) ?_ h
      · exact hf (index + 1) field item store (by simpa using hi) (by simpa using hw)
      · exact hf 0 field item store rfl rfl hv state hs

/-- A field's value comes from the first member of its name, since another would be refused. -/
theorem foldlM_member_parts_ok {r : Record Decoder σ α} (I : σ → Prop)
    {before ms : List (String × Value)} {s s' : List String × σ}
    (hseen : ∀ m ∈ before, r.field? m.1 ≠ none → m.1 ∈ s.1)
    (hf : ∀ name (field : Field Decoder σ) w store, r.field? name = some field →
      (before ++ ms).lookup name = some w → field.value w = .ok store →
      ∀ state, I state → I (store state))
    (hs : I s.2) (h : ms.foldlM (member r) s = .ok s') : I s'.2 := by
  induction ms generalizing before s with
  | nil =>
    obtain rfl := Except.ok.inj h
    exact hs
  | cons m ms ih =>
    rw [List.foldlM_cons] at h
    obtain ⟨t, hm, hrest⟩ := bind_ok_iff.mp h
    have hsplit : before ++ m :: ms = before ++ [m] ++ ms := by simp
    rw [hsplit] at hf
    rcases member_ok_iff.mp hm with ⟨hnone, rfl⟩ | ⟨field, store, hsome, hnew, hstore, rfl⟩
    · refine ih (fun n hn hfield => ?_) hf hs hrest
      rcases List.mem_append.mp hn with hn | hn
      · exact hseen n hn hfield
      · obtain rfl := List.mem_singleton.mp hn
        exact absurd hnone hfield
    · have hlookup : (before ++ [m] ++ ms).lookup m.1 = some m.2 := by
        refine List.lookup_eq_some_iff.mpr ⟨before, ms, by simp, fun n hn => ?_⟩
        have hne : m.1 ≠ n.1 := by
          intro heq
          exact hnew (heq ▸ hseen n hn (by simp [← heq, hsome]))
        simpa using hne
      refine ih (fun n hn hfield => ?_) hf (hf m.1 field m.2 store hsome hlookup hstore s.2 hs)
        hrest
      rcases List.mem_append.mp hn with hn | hn
      · exact List.mem_cons_of_mem _ (hseen n hn hfield)
      · obtain rfl := List.mem_singleton.mp hn
        exact List.mem_cons_self

/-- What every field keeps true of the state, if its value comes from the part it is for, is true of
it in the end. -/
theorem record_parts_ok {r : Record Decoder σ α} {v : Value} {a : α} (h : record r v = .ok a)
    (I : σ → Prop) (hs : I r.start) (hf : ∀ (index : Nat) name (value : Decoder (σ → σ)),
      r.fields[index]? = some ⟨name, value⟩ → ∀ w store, v.part? name index = some w →
        value w = .ok store → ∀ state, I state → I (store state)) :
    ∃ missing state, I state ∧ r.finish missing state = .ok a := by
  cases v with
  | object ms =>
    obtain ⟨⟨seen, state⟩, hms, h⟩ := bind_ok_iff.mp h
    refine ⟨_, state, foldlM_member_parts_ok I (List.forall_mem_nil _) ?_ hs hms, h⟩
    intro name field w store hfield hw hstore
    obtain ⟨hmem, rfl⟩ := Record.field?_eq_some hfield
    obtain ⟨index, hi⟩ := List.mem_iff_getElem?.mp hmem
    exact hf index field.name field.value hi w store hw hstore
  | array items =>
    obtain ⟨state, hi, h⟩ := bind_ok_iff.mp h
    obtain ⟨b, hb, h⟩ := bind_ok_iff.mp h
    split at h
    · simp at h
    · obtain rfl : b = a := by simpa using h
      refine ⟨_, state, storeItems_parts_ok I (fun index field item store hi hw hstore => ?_) hs hi,
        hb⟩
      exact hf index field.name field.value hi item store hw hstore
  | _ => simp [Decoder.record] at h

theorem list_item_ok {item : Decoder α} {items : List Value} {as : List α}
    (h : Decoder.list item (.array items) = .ok as) : ∀ v ∈ items, ∃ a, item v = .ok a :=
  ok_of_mapM h

theorem list_ok_array {item : Decoder α} {v : Value} {as : List α}
    (h : Decoder.list item v = .ok as) : ∃ items, v = .array items ∧ items.mapM item = .ok as := by
  cases v with
  | array items => exact ⟨items, rfl, h⟩
  | _ => simp [Decoder.list] at h

theorem nullable_ne_null {decode : Decoder α} {v : Value} {x : Option α}
    (h : decode.nullable v = .ok x) (hv : v ≠ .null) : ∃ a, decode v = .ok a := by
  cases v with
  | null => exact absurd rfl hv
  | _ =>
    obtain ⟨a, ha, -⟩ := map_ok_iff.mp h
    exact ⟨a, ha⟩

/-! ## Tagged nodes -/

/-- Going over members keeps those that are no tag, and the variant of the only one that is. -/
theorem foldlM_tagMember_ok {t : Tagged α} {ms : List (String × Value)}
    {s s' : Option (Decoder α) × List (String × Value)} (h : ms.foldlM (tagMember t) s = .ok s') :
    s'.2 = (ms.filter (·.1 ≠ tagName)).reverse ++ s.2 ∧
      ∀ decode ∈ s'.1, decode ∈ s.1 ∨
        s.1 = none ∧ ∃ tag, ms.lookup tagName = some tag ∧ t.ofTag tag = .ok decode := by
  induction ms generalizing s with
  | nil =>
    obtain rfl := Except.ok.inj h
    exact ⟨rfl, fun _ h => .inl h⟩
  | cons m ms ih =>
    obtain ⟨key, v⟩ := m
    obtain ⟨variant, rest⟩ := s
    rw [List.foldlM_cons] at h
    obtain ⟨mid, hm, h⟩ := bind_ok_iff.mp h
    obtain ⟨hrest, hvariant⟩ := ih h
    unfold tagMember at hm
    split at hm
    · rename_i hk
      obtain rfl : key = tagName := hk
      split at hm
      · simp at hm
      · rename_i hs
        obtain ⟨f, hf, hm⟩ := bind_ok_iff.mp hm
        obtain rfl := Except.ok.inj hm
        refine ⟨by simpa using hrest, fun decode hd => .inr ⟨by simpa using hs, v, by simp, ?_⟩⟩
        rcases hvariant decode hd with hd | ⟨hnone, -⟩
        · rwa [← Option.some.inj hd]
        · simp at hnone
    · rename_i hk
      obtain rfl := Except.ok.inj hm
      refine ⟨by simpa [hk] using hrest, fun decode hd => ?_⟩
      rw [List.lookup_cons, beq_false_of_ne (Ne.symm hk)]
      exact hvariant decode hd

/-- What a tagged node is without its tag has been decoded as the variant the tag tells. -/
theorem tagged_tag_ok {t : Tagged α} {v : Value} {a : α} (h : tagged t v = .ok a) :
    ∃ tag decode w, v.tag? = some tag ∧ t.ofTag tag = .ok decode ∧ decode w = .ok a ∧
      ∀ name index, name ≠ tagName → w.part? name index = v.part? name (index + 1) := by
  cases v with
  | object ms =>
    obtain ⟨⟨variant, rest⟩, hms, h⟩ := bind_ok_iff.mp h
    obtain ⟨hrest, hvariant⟩ := foldlM_tagMember_ok hms
    cases variant with
    | none => simp [Tagged.untagged] at h
    | some decode =>
      rcases hvariant decode rfl with hd | ⟨-, tag, htag, hof⟩
      · simp at hd
      refine ⟨tag, decode, _, htag, hof, h, fun name index hn => ?_⟩
      obtain rfl : rest = _ := hrest
      simp only [List.append_nil, List.reverse_reverse, Value.part?]
      exact lookup_filter fun m hm => by simpa [hm] using hn
  | array items =>
    cases items with
    | nil => simp [Decoder.tagged] at h
    | cons tag items =>
      obtain ⟨decode, hd, h⟩ := bind_ok_iff.mp h
      exact ⟨tag, decode, _, rfl, hd, h, fun name index _ => (List.getElem?_cons_succ).symm⟩
  | _ => simp [Decoder.tagged] at h

end Decoder

end IcuMessage.Json
