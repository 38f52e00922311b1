/-
The members of an object in another order, among others that no field is named
after, and without those that say no more than their absence. What is decoded
from all of a node's members in their order is decoded from such members as
well, for a record (`Decoder.record_rearranged`) and for a tagged node, wherever
its tag stands (`Decoder.tagged_rearranged`).
-/
import Mathlib.Data.List.Pairwise
import IcuMessage.Proofs.Json.Decoded
import IcuMessage.Proofs.Json.Streaming

namespace IcuMessage.Json

variable {σ α : Type}

/-! ## Members rearranged -/

/-- The members `ms` are those of `full` in any order, without some that are `absent` anyway, and
among any others whose names `full` does not have. -/
def Rearranges (absent full ms : List (String × Value)) : Prop :=
  ∃ omitted extra, (omitted ++ ms).Perm (full ++ extra) ∧ (∀ m ∈ omitted, m ∈ absent) ∧
    ∀ m ∈ extra, m.1 ∉ full.map (·.1)

mutual

/-- The second value is the first with the members of its objects rearranged, at every depth. -/
inductive Value.Rearranged (absent : List (String × Value)) : Value → Value → Prop
  | scalar {v : Value} (h : v.depth = 0) : Value.Rearranged absent v v
  | array {items items' : List Value} (h : Value.RearrangedItems absent items items') :
      Value.Rearranged absent (.array items) (.array items')
  | object {ms full ms' : List (String × Value)} (h : Value.RearrangedMembers absent ms full)
      (hr : Rearranges absent full ms') : Value.Rearranged absent (.object ms) (.object ms')

inductive Value.RearrangedItems (absent : List (String × Value)) : List Value → List Value → Prop
  | nil : Value.RearrangedItems absent [] []
  | cons {item item' : Value} {items items' : List Value}
      (h : Value.Rearranged absent item item') (hs : Value.RearrangedItems absent items items') :
      Value.RearrangedItems absent (item :: items) (item' :: items')

inductive Value.RearrangedMembers (absent : List (String × Value)) :
    List (String × Value) → List (String × Value) → Prop
  | nil : Value.RearrangedMembers absent [] []
  | cons {key : String} {v v' : Value} {ms ms' : List (String × Value)}
      (h : Value.Rearranged absent v v') (hs : Value.RearrangedMembers absent ms ms') :
      Value.RearrangedMembers absent ((key, v) :: ms) ((key, v') :: ms')

end

variable {absent full ms : List (String × Value)}

theorem lookup_of_unique {key : String} {v : Value} (h : (key, v) ∈ ms)
    (hu : ∀ m ∈ ms, m.1 = key → m.2 = v) : ms.lookup key = some v := by
  induction ms with
  | nil => cases h
  | cons m ms ih =>
    obtain ⟨k, w⟩ := m
    by_cases hk : k = key
    · subst hk
      rw [List.lookup_cons_self, ← hu (k, w) List.mem_cons_self rfl]
    · rw [List.lookup_cons, beq_false_of_ne (Ne.symm hk)]
      have hms : (key, v) ∈ ms := by
        rcases List.mem_cons.mp h with heq | h
        · exact absurd (Prod.mk.inj heq).1.symm hk
        · exact h
      exact ih hms fun m hm => hu m (List.mem_cons_of_mem _ hm)

namespace Rearranges

theorem mem {m : String × Value} (h : Rearranges absent full ms) (hm : m ∈ full)
    (ha : m ∉ absent) : m ∈ ms := by
  obtain ⟨omitted, extra, hp, ho, -⟩ := h
  rcases List.mem_append.mp (hp.mem_iff.mpr (List.mem_append_left extra hm)) with hm | hm
  · exact absurd (ho m hm) ha
  · exact hm

/-- No other member has a name that `full` has. -/
theorem mem_full {m : String × Value} (h : Rearranges absent full ms) (hm : m ∈ ms)
    (hn : m.1 ∈ full.map (·.1)) : m ∈ full := by
  obtain ⟨omitted, extra, hp, -, he⟩ := h
  rcases List.mem_append.mp (hp.mem_iff.mp (List.mem_append_right omitted hm)) with hm | hm
  · exact hm
  · exact absurd hn (he m hm)

theorem lookup {key : String} {v : Value} (h : Rearranges absent full ms) (hm : (key, v) ∈ full)
    (hu : ∀ m ∈ full, m.1 = key → m.2 = v) (ha : (key, v) ∉ absent) : ms.lookup key = some v :=
  lookup_of_unique (h.mem hm ha) fun m hms hk =>
    hu m (h.mem_full hms (hk ▸ List.mem_map_of_mem hm)) hk

end Rearranges

namespace Decoder

/-! ## One member after another -/

theorem member_ok_iff {r : Record Decoder σ α} {s s' : List String × σ} {m : String × Value} :
    member r s m = .ok s' ↔ (r.field? m.1 = none ∧ s' = s) ∨
      ∃ field store, r.field? m.1 = some field ∧ m.1 ∉ s.1 ∧ field.value m.2 = .ok store ∧
        s' = (m.1 :: s.1, store s.2) := by
  rw [member, Record.unseenField?]
  cases r.field? m.1 with
  | none => simp [eq_comm]
  | some field =>
    by_cases hs : m.1 ∈ s.1
    · simp [hs]
    · simp only [List.contains_iff_mem, hs, if_false, ok_bind, bind_ok_iff]
      simp [eq_comm]

/-- The same record so far, and no fields seen that the other has not seen. -/
def Leaner (t s : List String × σ) : Prop :=
  t.2 = s.2 ∧ t.1 ⊆ s.1

theorem Leaner.refl (s : List String × σ) : Leaner s s :=
  ⟨rfl, List.Subset.refl _⟩

theorem Leaner.trans {u t s : List String × σ} (h : Leaner u t) (h' : Leaner t s) : Leaner u s :=
  ⟨h.1.trans h'.1, List.Subset.trans h.2 h'.2⟩

theorem Leaner.member {r : Record Decoder σ α} {t s s' : List String × σ} {m : String × Value}
    (h : Leaner t s) (hs : member r s m = .ok s') :
    ∃ t', Decoder.member r t m = .ok t' ∧ Leaner t' s' := by
  obtain ⟨hf, rfl⟩ | ⟨field, store, hf, hm, hv, rfl⟩ := member_ok_iff.mp hs
  · exact ⟨t, member_ok_iff.mpr (.inl ⟨hf, rfl⟩), h⟩
  · refine ⟨(m.1 :: t.1, store t.2), ?_, congrArg store h.1, List.cons_subset_cons _ h.2⟩
    exact member_ok_iff.mpr (.inr ⟨field, store, hf, fun ht => hm (h.2 ht), hv, rfl⟩)

theorem Leaner.foldlM {r : Record Decoder σ α} {t s s' : List String × σ} (h : Leaner t s)
    (hs : ms.foldlM (Decoder.member r) s = .ok s') :
    ∃ t', ms.foldlM (Decoder.member r) t = .ok t' ∧ Leaner t' s' := by
  induction ms generalizing t s with
  | nil =>
    obtain rfl : s = s' := Except.ok.inj hs
    exact ⟨t, rfl, h⟩
  | cons m ms ih =>
    rw [List.foldlM_cons] at hs
    obtain ⟨mid, hm, hs⟩ := bind_ok_iff.mp hs
    obtain ⟨mid', hm', hmid⟩ := h.member hm
    obtain ⟨t', ht, h'⟩ := ih hmid hs
    exact ⟨t', by rw [List.foldlM_cons, hm', ok_bind, ht], h'⟩

end Decoder

/-! ## Records whose fields come in any order -/

/-- Storing the values of the two fields comes to the same in either order. -/
def Field.Commutes (f g : Field Decoder σ) : Prop :=
  ∀ v w storeF storeG, f.value v = .ok storeF → g.value w = .ok storeG →
    ∀ state, storeF (storeG state) = storeG (storeF state)

instance : Std.Symm (@Field.Commutes σ) where
  symm _ _ h v w storeG storeF hv hw state := (h w v storeF storeG hw hv state).symm

theorem Field.Commutes.of_stores {β γ : Type} {name name' : String} {k : β → σ → σ}
    {k' : γ → σ → σ} {decode : Decoder β} {decode' : Decoder γ}
    (h : ∀ b c state, k b (k' c state) = k' c (k b state)) :
    Field.Commutes ⟨name, k <$> decode⟩ ⟨name', k' <$> decode'⟩ := by
  intro v w storeF storeG hv hw state
  obtain ⟨b, -, rfl⟩ := Decoder.ok_of_map hv
  obtain ⟨c, -, rfl⟩ := Decoder.ok_of_map hw
  exact h b c state

/-- What is `absent` anyway, stored in the field, leaves a record as it starts. -/
def Field.Keeps (absent : List (String × Value)) (start : σ) (f : Field Decoder σ) : Prop :=
  ∀ m ∈ absent, m.1 = f.name → ∀ store, f.value m.2 = .ok store → store start = start

theorem Field.Keeps.of_not_mem {start : σ} {name : String} {value : Decoder (σ → σ)}
    (h : name ∉ absent.map (·.1)) : Field.Keeps absent start ⟨name, value⟩ :=
  fun _ hm hn _ _ => absurd (List.mem_map.mpr ⟨_, hm, hn⟩) h

theorem Field.Keeps.of_default {β : Type} {start : σ} {name : String} {b : β} {k : β → σ → σ}
    {decode : Decoder β} (v : Value) (h : ∀ m ∈ absent, m.1 = name → m.2 = v)
    (hv : decode v = .ok b) (hk : k b start = start) :
    Field.Keeps absent start ⟨name, k <$> decode⟩ := by
  intro m hm hn store hs
  obtain ⟨c, hc, rfl⟩ := Decoder.ok_of_map hs
  rw [h m hm hn, hv] at hc
  obtain rfl := Except.ok.inj hc
  exact hk

/-- The fields of the record may come in any order, and those that hold what is `absent` anyway may
be missing. -/
structure Record.Unordered (absent : List (String × Value)) (r : Record Decoder σ α) : Prop where
  commute : r.fields.Pairwise Field.Commutes
  keep : ∀ f ∈ r.fields, f.Keeps absent r.start

theorem Record.field?_eq_some {r : Record Decoder σ α} {name : String} {field : Field Decoder σ}
    (h : r.field? name = some field) : field ∈ r.fields ∧ field.name = name :=
  ⟨List.mem_of_find?_eq_some h, by simpa using List.find?_some h⟩

theorem Record.field?_eq_none {r : Record Decoder σ α} {name : String}
    (h : name ∉ r.fields.map (·.name)) : r.field? name = none := by
  refine List.find?_eq_none.mpr fun field hf hn => h ?_
  obtain rfl : field.name = name := by simpa using hn
  exact List.mem_map_of_mem hf

namespace Record.Unordered

variable {r : Record Decoder σ α}

theorem member_swap (hr : r.Unordered absent) {s s' s'' : List String × σ} {m n : String × Value}
    (hm : Decoder.member r s m = .ok s') (hn : Decoder.member r s' n = .ok s'') :
    ∃ t t', Decoder.member r s n = .ok t ∧ Decoder.member r t m = .ok t' ∧
      Decoder.Leaner t' s'' := by
  obtain ⟨hf, rfl⟩ | ⟨f, storeF, hf, hms, hv, rfl⟩ := Decoder.member_ok_iff.mp hm
  · exact ⟨s'', s'', hn, Decoder.member_ok_iff.mpr (.inl ⟨hf, rfl⟩), .refl _⟩
  · obtain ⟨hg, rfl⟩ | ⟨g, storeG, hg, hns, hw, rfl⟩ := Decoder.member_ok_iff.mp hn
    · exact ⟨s, _, Decoder.member_ok_iff.mpr (.inl ⟨hg, rfl⟩), hm, .refl _⟩
    · obtain ⟨hne, hns⟩ : n.1 ≠ m.1 ∧ n.1 ∉ s.1 := by simpa using hns
      obtain ⟨hfm, hfn⟩ := Record.field?_eq_some hf
      obtain ⟨hgm, hgn⟩ := Record.field?_eq_some hg
      have hms' : m.1 ∉ n.1 :: s.1 := by simpa [hne.symm] using hms
      refine ⟨(n.1 :: s.1, storeG s.2), (m.1 :: n.1 :: s.1, storeF (storeG s.2)), ?_, ?_, ?_, ?_⟩
      · exact Decoder.member_ok_iff.mpr (.inr ⟨g, storeG, hg, hns, hw, rfl⟩)
      · exact Decoder.member_ok_iff.mpr (.inr ⟨f, storeF, hf, hms', hv, rfl⟩)
      · have hfg : f ≠ g := fun heq => hne (by rw [← hfn, ← hgn, heq])
        exact hr.commute.forall hfm hgm hfg _ _ _ _ hv hw s.2
      · exact (List.Perm.swap n.1 m.1 s.1).subset

theorem foldlM_perm (hr : r.Unordered absent) {ms ms' : List (String × Value)} (hp : ms.Perm ms')
    {s s' : List String × σ} (h : ms.foldlM (Decoder.member r) s = .ok s') :
    ∃ t', ms'.foldlM (Decoder.member r) s = .ok t' ∧ Decoder.Leaner t' s' := by
  induction hp generalizing s s' with
  | nil => exact ⟨s', h, .refl _⟩
  | cons m hp ih =>
    rw [List.foldlM_cons] at h
    obtain ⟨mid, hm, h⟩ := bind_ok_iff.mp h
    obtain ⟨t', ht, hl⟩ := ih h
    exact ⟨t', by rw [List.foldlM_cons, hm, ok_bind, ht], hl⟩
  | swap n m ms =>
    -- The names seen come in another order now, so the states are not the same from here on.
    rw [List.foldlM_cons] at h
    obtain ⟨mid, hm, h⟩ := bind_ok_iff.mp h
    rw [List.foldlM_cons] at h
    obtain ⟨last, hn, h⟩ := bind_ok_iff.mp h
    obtain ⟨u, u', hn', hm', hu⟩ := hr.member_swap hm hn
    obtain ⟨t', ht, hl⟩ := hu.foldlM h
    refine ⟨t', ?_, hl⟩
    rw [List.foldlM_cons, hn', ok_bind, List.foldlM_cons, hm', ok_bind, ht]
  | trans _ _ ih ih' =>
    obtain ⟨u, hu, hl⟩ := ih h
    obtain ⟨t', ht, hl'⟩ := ih' hu
    exact ⟨t', ht, hl'.trans hl⟩

theorem foldlM_omitted (hr : r.Unordered absent) {omitted : List (String × Value)}
    (ho : ∀ m ∈ omitted, m ∈ absent) {s : List String × σ}
    (h : omitted.foldlM (Decoder.member r) ([], r.start) = .ok s) : s.2 = r.start := by
  refine foldlM_invariant (fun s : List String × σ => s.2 = r.start) ?_ rfl h
  intro m hm s s' hs hmember
  obtain ⟨-, rfl⟩ | ⟨field, store, hf, -, hv, rfl⟩ := Decoder.member_ok_iff.mp hmember
  · exact hs
  · obtain ⟨hmem, hname⟩ := Record.field?_eq_some hf
    show store s.2 = r.start
    rw [hs]
    exact hr.keep field hmem m (ho m hm) hname.symm store hv

end Record.Unordered

theorem foldlM_member_extra {r : Record Decoder σ α} {extra : List (String × Value)}
    (he : ∀ m ∈ extra, m.1 ∉ r.fields.map (·.name)) (s : List String × σ) :
    extra.foldlM (Decoder.member r) s = .ok s := by
  induction extra with
  | nil => rfl
  | cons m extra ih =>
    have hm : Decoder.member r s m = .ok s :=
      Decoder.member_ok_iff.mpr (.inl ⟨Record.field?_eq_none (he m List.mem_cons_self), rfl⟩)
    rw [List.foldlM_cons, hm, ok_bind, ih fun m hm => he m (List.mem_cons_of_mem _ hm)]

namespace Decoder

theorem record_rearranged {r : Record Decoder σ α} (hr : r.Unordered absent)
    (hn : full.map (·.1) = r.fields.map (·.name)) (h : Rearranges absent full ms) {a : α}
    (ha : record r (.object full) = .ok a) : record r (.object ms) = .ok a := by
  obtain ⟨omitted, extra, hp, ho, he⟩ := h
  obtain ⟨s, hs, hfinish⟩ := bind_ok_iff.mp (show ofMembers r full = .ok a from ha)
  have hfull : (full ++ extra).foldlM (member r) ([], r.start) = .ok s := by
    rw [List.foldlM_append, hs, ok_bind, foldlM_member_extra (by simpa only [← hn] using he)]
  obtain ⟨t, ht, hts⟩ := hr.foldlM_perm hp.symm hfull
  rw [List.foldlM_append] at ht
  obtain ⟨mid, hmid, ht⟩ := bind_ok_iff.mp ht
  -- The omitted members leave the record as it is, so the others may as well start with it.
  have hlean : Leaner ([], r.start) mid := ⟨(hr.foldlM_omitted ho hmid).symm, List.nil_subset _⟩
  obtain ⟨u, hu, hut⟩ := hlean.foldlM ht
  show ofMembers r ms = .ok a
  rw [ofMembers, hu, ok_bind]
  show r.finish _ u.2 = .ok a
  rw [(hut.trans hts).1]
  exact hfinish

theorem tagged_rearranged {t : Tagged α} {r : Record Decoder σ α} {name : String}
    (hname : t.named name = .ok (record r)) (hr : r.Unordered absent)
    (habsent : ∀ m ∈ absent, m.1 ≠ tagName) (hfull : tagName ∉ full.map (·.1))
    (hn : full.map (·.1) = r.fields.map (·.name))
    (h : Rearranges absent ((tagName, .string name) :: full) ms) {a : α}
    (ha : tagged t (.object ((tagName, .string name) :: full)) = .ok a) :
    tagged t (.object ms) = .ok a := by
  -- Without the tag, the members are those of the variant's record rearranged.
  have hmem : (tagName, .string name) ∈ ms :=
    h.mem List.mem_cons_self fun ht => habsent _ ht rfl
  obtain ⟨omitted, extra, hp, ho, he⟩ := h
  obtain ⟨before, after, rfl⟩ := List.append_of_mem hmem
  have hmoved : (omitted ++ (before ++ after)).Perm (full ++ extra) := by
    rw [← List.append_assoc] at hp ⊢
    exact (List.perm_cons (tagName, .string name)).mp (List.perm_middle.symm.trans hp)
  have hextra : ∀ m ∈ extra, m.1 ∉ full.map (·.1) ∧ m.1 ≠ tagName := by
    intro m hm
    have := he m hm
    simp only [List.map_cons, List.mem_cons, not_or] at this
    exact ⟨this.2, this.1⟩
  have hrest : ∀ m ∈ before ++ after, m.1 ≠ tagName := by
    intro m hm
    rcases List.mem_append.mp (hmoved.mem_iff.mp (List.mem_append_right omitted hm)) with hm | hm
    · exact fun hm' => hfull (hm' ▸ List.mem_map_of_mem hm)
    · exact (hextra m hm).2
  rw [tagged_tagFirst fun m hm ht => hfull (ht ▸ List.mem_map_of_mem hm), hname, ok_bind] at ha
  rw [tagged_tagAmong (fun m hm => hrest m (List.mem_append_left _ hm))
    (fun m hm => hrest m (List.mem_append_right _ hm)), hname, ok_bind]
  exact record_rearranged hr hn ⟨omitted, extra, hmoved, ho, fun m hm => (hextra m hm).1⟩ ha

end Decoder

end IcuMessage.Json
