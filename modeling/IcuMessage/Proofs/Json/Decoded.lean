/-
What a success of a decoder says about the value decoded: its parts came from
values nested less deep (`list_ok`, `record_ok`), and a tagged node from a
value that is no deeper than the node and was decoded as one of the variants
(`tagged_ok`).
-/
import IcuMessage.Proofs.Json.Agreement

namespace IcuMessage.Json

variable {ε α β σ : Type} {F : Type → Type}

theorem foldlM_invariant {step : σ → α → Except ε σ} {as : List α} (I : σ → Prop)
    (h : ∀ a ∈ as, ∀ s s', I s → step s a = .ok s' → I s') {s s' : σ} (hs : I s)
    (hf : as.foldlM step s = .ok s') : I s' := by
  induction as generalizing s with
  | nil =>
    obtain rfl : s = s' := by simpa [pure, Except.pure] using hf
    exact hs
  | cons a as ih =>
    rw [List.foldlM_cons] at hf
    obtain ⟨mid, ha, hf⟩ := bind_ok_iff.mp hf
    exact ih (fun b hb => h b (List.mem_cons_of_mem _ hb)) (h a List.mem_cons_self _ _ hs ha) hf

theorem mem_of_mapM_ok {f : α → Except ε β} {as : List α} {bs : List β}
    (h : as.mapM f = .ok bs) : ∀ b ∈ bs, ∃ a ∈ as, f a = .ok b := by
  induction as generalizing bs with
  | nil =>
    obtain rfl : [] = bs := by simpa [pure, Except.pure] using h
    simp
  | cons a as ih =>
    rw [List.mapM_cons] at h
    obtain ⟨b, hb, h⟩ := bind_ok_iff.mp h
    obtain ⟨bs', hbs, h⟩ := bind_ok_iff.mp h
    obtain rfl : b :: bs' = bs := by simpa [pure, Except.pure] using h
    intro c hc
    rcases List.mem_cons.mp hc with rfl | hc
    · exact ⟨a, List.mem_cons_self, hb⟩
    · obtain ⟨a', ha', hf⟩ := ih hbs c hc
      exact ⟨a', List.mem_cons_of_mem _ ha', hf⟩

theorem Record.mem_of_unseenField? {r : Record F σ α} {seen : List String} {name : String}
    {field : Field F σ} (h : r.unseenField? seen name = .ok (some field)) : field ∈ r.fields := by
  unfold Record.unseenField? Record.field? at h
  split at h
  · simp at h
  · rename_i f hf
    split at h
    · simp at h
    · obtain rfl : f = field := by simpa using h
      exact List.mem_of_find?_eq_some hf

theorem Tagged.mem_of_named {t : Tagged α} {name : String} {decode : Decoder α}
    (h : t.named name = .ok decode) : (name, decode) ∈ t.variants := by
  unfold Tagged.named at h
  split at h
  · rename_i f hf
    obtain rfl : f = decode := by simpa using h
    obtain ⟨l₁, l₂, hl, -⟩ := List.lookup_eq_some_iff.mp hf
    rw [hl]
    exact List.mem_append_right _ List.mem_cons_self
  · simp at h

theorem Tagged.mem_of_ofTag {t : Tagged α} {tag : Value} {decode : Decoder α}
    (h : t.ofTag tag = .ok decode) : ∃ name, (name, decode) ∈ t.variants := by
  unfold Tagged.ofTag at h
  split at h
  · exact ⟨_, Tagged.mem_of_named h⟩
  · rename_i index
    unfold Tagged.numbered at h
    split at h
    · rename_i name f hi
      obtain rfl : f = decode := by simpa using h
      exact ⟨name, List.mem_of_getElem? hi⟩
    · simp at h
  · simp at h

namespace Decoder

theorem list_ok {item : Decoder α} {v : Value} {as : List α} (h : Decoder.list item v = .ok as) :
    0 < v.depth ∧ ∀ a ∈ as, ∃ w : Value, w.depth < v.depth ∧ item w = .ok a := by
  cases v with
  | array items =>
    refine ⟨by simp [Value.depth], fun a ha => ?_⟩
    obtain ⟨w, hw, hi⟩ := mem_of_mapM_ok h a ha
    exact ⟨w, Nat.lt_succ_of_le (Value.depth_le_depthItems hw), hi⟩
  | _ => simp [Decoder.list] at h

theorem nullable_ok {decode : Decoder α} {v : Value} {x : Option α}
    (h : decode.nullable v = .ok x) : ∀ a ∈ x, decode v = .ok a := by
  intro a ha
  obtain rfl : x = some a := ha
  cases v with
  | null => simp [nullable] at h
  | _ =>
    obtain ⟨b, hb, h⟩ := map_ok_iff.mp h
    rw [hb, Option.some.inj h]

theorem ok_of_map {k : α → β} {decode : Decoder α} {v : Value} {b : β}
    (h : (k <$> decode) v = .ok b) : ∃ a, decode v = .ok a ∧ k a = b :=
  map_ok_iff.mp h

theorem storeItems_ok (I : σ → Prop) {fields : List (Field Decoder σ)} {items : List Value}
    (hf : ∀ field ∈ fields, ∀ item ∈ items, ∀ store, field.value item = .ok store →
      ∀ state, I state → I (store state)) {state state' : σ} (hs : I state)
    (h : storeItems fields items state = .ok state') : I state' := by
  induction fields generalizing items state with
  | nil =>
    obtain rfl : state = state' := by simpa [storeItems] using h
    exact hs
  | cons field fields ih =>
    cases items with
    | nil =>
      obtain rfl : state = state' := by simpa [storeItems] using h
      exact hs
    | cons item items =>
      obtain ⟨store, hv, h⟩ := bind_ok_iff.mp h
      refine ih (fun f hf' i hi => ?_) ?_ h
      · exact hf f (List.mem_cons_of_mem _ hf') i (List.mem_cons_of_mem _ hi)
      · exact hf field List.mem_cons_self item List.mem_cons_self store hv state hs

/-- What every field keeps true of a record's state is true of it in the end. -/
theorem record_ok {r : Record Decoder σ α} {v : Value} {a : α} (h : Decoder.record r v = .ok a)
    (I : σ → Prop) (hs : I r.start) (hf : ∀ field ∈ r.fields, ∀ w : Value, w.depth < v.depth →
      ∀ store, field.value w = .ok store → ∀ state, I state → I (store state)) :
    ∃ missing state, I state ∧ r.finish missing state = .ok a := by
  cases v with
  | object ms =>
    obtain ⟨⟨seen, state⟩, hms, h⟩ := bind_ok_iff.mp h
    refine ⟨_, state, ?_, h⟩
    refine foldlM_invariant (fun s : List String × σ => I s.2) (fun m hm s s' hs h => ?_) hs hms
    obtain ⟨field, hfield, h⟩ := bind_ok_iff.mp h
    cases field with
    | none =>
      obtain rfl : s = s' := by simpa using h
      exact hs
    | some field =>
      obtain ⟨store, hv, h⟩ := bind_ok_iff.mp h
      obtain rfl : (m.1 :: s.1, store s.2) = s' := by simpa using h
      exact hf field (Record.mem_of_unseenField? hfield) m.2
        (Nat.lt_succ_of_le (Value.depth_le_depthMembers hm)) store hv s.2 hs
  | array items =>
    obtain ⟨state, hi, h⟩ := bind_ok_iff.mp h
    obtain ⟨b, hb, h⟩ := bind_ok_iff.mp h
    split at h
    · simp at h
    · obtain rfl : b = a := by simpa using h
      exact ⟨_, state, storeItems_ok I (fun field hfield w hw => hf field hfield w
        (Nat.lt_succ_of_le (Value.depth_le_depthItems hw))) hs hi, hb⟩
  | _ => simp [Decoder.record] at h

theorem tagMember_ok {t : Tagged α} {ms : List (String × Value)} {m : String × Value} (hm : m ∈ ms)
    {s s' : Option (Decoder α) × List (String × Value)}
    (hs : (∀ f ∈ s.1, ∃ name, (name, f) ∈ t.variants) ∧ ∀ m ∈ s.2, m ∈ ms)
    (h : tagMember t s m = .ok s') :
    (∀ f ∈ s'.1, ∃ name, (name, f) ∈ t.variants) ∧ ∀ m ∈ s'.2, m ∈ ms := by
  obtain ⟨variant, rest⟩ := s
  obtain ⟨hv, hr⟩ := hs
  unfold tagMember at h
  split at h
  · split at h
    · simp at h
    · obtain ⟨f, hf, h⟩ := bind_ok_iff.mp h
      obtain rfl : (some f, rest) = s' := by simpa using h
      refine ⟨fun g hg => ?_, hr⟩
      obtain rfl : f = g := Option.some.inj hg
      exact Tagged.mem_of_ofTag hf
  · obtain rfl : (variant, m :: rest) = s' := by simpa using h
    refine ⟨hv, fun m' hm' => ?_⟩
    rcases List.mem_cons.mp hm' with rfl | hm'
    · exact hm
    · exact hr m' hm'

/-- A tagged node is one of the variants, decoded from no more than the node. -/
theorem tagged_ok {t : Tagged α} {v : Value} {a : α} (h : Decoder.tagged t v = .ok a) :
    ∃ name decode, (name, decode) ∈ t.variants ∧
      ∃ w : Value, w.depth ≤ v.depth ∧ decode w = .ok a := by
  cases v with
  | object ms =>
    obtain ⟨⟨variant, rest⟩, hms, h⟩ := bind_ok_iff.mp h
    obtain ⟨hv, hr⟩ := foldlM_invariant _ (fun m hm s s' => tagMember_ok hm)
      (show (∀ f ∈ (none : Option (Decoder α)), ∃ name, (name, f) ∈ t.variants) ∧
        ∀ m ∈ ([] : List (String × Value)), m ∈ ms by simp) hms
    cases variant with
    | none => simp [Tagged.untagged] at h
    | some decode =>
      obtain ⟨name, hd⟩ := hv decode rfl
      have hle : Value.depthMembers rest.reverse ≤ Value.depthMembers ms :=
        depthMembers_le_of_subset fun m hm => hr m (List.mem_reverse.mp hm)
      refine ⟨name, decode, hd, _, ?_, h⟩
      simp only [Value.depth]
      omega
  | array items =>
    cases items with
    | nil => simp [Decoder.tagged] at h
    | cons tag items =>
      obtain ⟨decode, hd, h⟩ := bind_ok_iff.mp h
      obtain ⟨name, hd⟩ := Tagged.mem_of_ofTag hd
      refine ⟨name, decode, hd, _, ?_, h⟩
      simp only [Value.depth, Value.depthItems]
      omega
  | _ => simp [Decoder.tagged] at h

end Decoder

end IcuMessage.Json
