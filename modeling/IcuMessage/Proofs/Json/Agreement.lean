/-
Decoders built alike. Two records or tagged nodes may differ in how their
parts are decoded only (`Record.Rel`, `Tagged.Rel`): where the parts agree on
values nested less than `d` deep, so do the records and the nodes
(`AgreeBelow.record`, `AgreeBelow.tagged`).
-/
import Mathlib.Data.List.Forall2
import IcuMessage.Proofs.Json.Values
import IcuMessage.Json.Tagged

namespace IcuMessage.Json

variable {ε α β γ δ σ τ : Type} {F G : Type → Type}

/-! ## Computations that go alike -/

/-- Both fail with the same error, or both give results, which are related. -/
inductive Alike (R : α → β → Prop) : Except ε α → Except ε β → Prop
  | error (e : ε) : Alike R (.error e) (.error e)
  | ok {a : α} {b : β} (h : R a b) : Alike R (.ok a) (.ok b)

theorem Alike.bind_eq {R : α → β → Prop} {x : Except ε α} {y : Except ε β} (h : Alike R x y)
    {f : α → Except ε γ} {g : β → Except ε γ} (hfg : ∀ a b, R a b → f a = g b) :
    (x >>= f) = (y >>= g) := by
  cases h with
  | error e => rfl
  | ok hab => exact hfg _ _ hab

theorem Alike.bind {R : α → β → Prop} {S : γ → δ → Prop} {x : Except ε α} {y : Except ε β}
    (h : Alike R x y) {f : α → Except ε γ} {g : β → Except ε δ}
    (hfg : ∀ a b, R a b → Alike S (f a) (g b)) : Alike S (x >>= f) (y >>= g) := by
  cases h with
  | error e => exact .error e
  | ok hab => exact hfg _ _ hab

theorem Alike.foldlM {R : σ → τ → Prop} {f : σ → α → Except ε σ} {g : τ → α → Except ε τ}
    {as : List α} (hfg : ∀ a ∈ as, ∀ s t, R s t → Alike R (f s a) (g t a)) {s : σ} {t : τ}
    (h : R s t) : Alike R (as.foldlM f s) (as.foldlM g t) := by
  induction as generalizing s t with
  | nil => exact .ok h
  | cons a as ih =>
    rw [List.foldlM_cons, List.foldlM_cons]
    exact (hfg a List.mem_cons_self s t h).bind fun s t h =>
      ih (fun a ha => hfg a (List.mem_cons_of_mem _ ha)) h

theorem foldlM_congr {f g : σ → α → Except ε σ} {as : List α}
    (h : ∀ a ∈ as, ∀ s, f s a = g s a) (s : σ) : as.foldlM f s = as.foldlM g s := by
  induction as generalizing s with
  | nil => rfl
  | cons a as ih =>
    rw [List.foldlM_cons, List.foldlM_cons, h a List.mem_cons_self]
    refine bind_congr fun s => ih (fun a ha => h a (List.mem_cons_of_mem _ ha)) s

theorem mapM_congr {f g : α → Except ε β} {as : List α} (h : ∀ a ∈ as, f a = g a) :
    as.mapM f = as.mapM g := by
  induction as with
  | nil => rfl
  | cons a as ih =>
    rw [List.mapM_cons, List.mapM_cons, h a List.mem_cons_self,
      ih fun a ha => h a (List.mem_cons_of_mem _ ha)]

/-! ## Records with the same fields -/

/-- Fields of one name are found at the same place. -/
theorem find?_field_rel {σ τ : Type} {R : F (σ → σ) → G (τ → τ) → Prop}
    {fields : List (Field F σ)} {fields' : List (Field G τ)}
    (h : List.Forall₂ (fun f g => f.name = g.name ∧ R f.value g.value) fields fields')
    (name : String) : Option.Rel (fun f g => R f.value g.value)
      (fields.find? (·.name == name)) (fields'.find? (·.name == name)) := by
  induction h with
  | nil => exact .none
  | @cons f g fields fields' hfg _ ih =>
    obtain ⟨hn, hv⟩ := hfg
    rw [List.find?_cons, List.find?_cons, hn]
    cases g.name == name with
    | true => exact .some hv
    | false => exact ih

/-- The records differ in how they get the values of their fields only, and that as `R` says. -/
structure Record.Rel (R : F (σ → σ) → G (σ → σ) → Prop) (r : Record F σ α) (s : Record G σ α) :
    Prop where
  title : r.title = s.title
  start : r.start = s.start
  finish : r.finish = s.finish
  fields : List.Forall₂ (fun f g => f.name = g.name ∧ R f.value g.value) r.fields s.fields

namespace Record.Rel

variable {R : F (σ → σ) → G (σ → σ) → Prop} {r : Record F σ α} {s : Record G σ α}

theorem field? (h : r.Rel R s) (name : String) :
    Option.Rel (fun f g => R f.value g.value) (r.field? name) (s.field? name) :=
  find?_field_rel h.fields name

theorem unseenField? (h : r.Rel R s) (seen : List String) (name : String) :
    Alike (Option.Rel fun f g => R f.value g.value) (r.unseenField? seen name)
      (s.unseenField? seen name) := by
  have hf := h.field? name
  unfold Record.unseenField?
  generalize r.field? name = f at hf
  generalize s.field? name = g at hf
  cases hf with
  | none => exact .ok .none
  | some hfg =>
    simp only
    by_cases hs : seen.contains name = true
    · rw [if_pos hs, if_pos hs]
      exact .error _
    · rw [if_neg hs, if_neg hs]
      exact .ok (.some hfg)

theorem length_fields (h : r.Rel R s) : r.fields.length = s.fields.length :=
  h.fields.length_eq

theorem missingItem (h : r.Rel R s) : r.missingItem = s.missingItem := by
  funext name
  have hi : r.fields.findIdx (·.name == name) = s.fields.findIdx (·.name == name) := by
    have hf := h.fields
    generalize r.fields = fields at hf ⊢
    generalize s.fields = fields' at hf ⊢
    induction hf with
    | nil => rfl
    | cons hfg _ ih => simp only [List.findIdx_cons, hfg.1, ih]
  rw [Record.missingItem, Record.missingItem, hi, h.title, h.length_fields]

end Record.Rel

/-! ## Decoders that agree on values of little nesting -/

def Decoder.AgreeBelow (d : Nat) (f g : Decoder α) : Prop :=
  ∀ v : Value, v.depth < d → f v = g v

namespace Decoder.AgreeBelow

variable {d : Nat}

theorem refl (f : Decoder α) : AgreeBelow d f f :=
  fun _ _ => rfl

theorem of_le {d' : Nat} {f g : Decoder α} (h : AgreeBelow d f g) (hd : d' ≤ d) :
    AgreeBelow d' f g :=
  fun v hv => h v (Nat.lt_of_lt_of_le hv hd)

theorem map {f g : Decoder α} (h : AgreeBelow d f g) (k : α → β) :
    AgreeBelow d (k <$> f) (k <$> g) :=
  fun v hv => congrArg (Except.map k) (h v hv)

theorem nullable {f g : Decoder α} (h : AgreeBelow d f g) : AgreeBelow d f.nullable g.nullable := by
  intro v hv
  have := h v hv
  unfold Decoder.nullable
  cases v <;> simp only [this]

theorem list {f g : Decoder α} (h : AgreeBelow d f g) :
    AgreeBelow (d + 1) (Decoder.list f) (Decoder.list g) := by
  intro v hv
  cases v with
  | array items =>
    refine mapM_congr fun item hi => h item ?_
    have := Value.depth_le_depthItems hi
    rw [Value.depth] at hv
    omega
  | _ => rfl

theorem storeItems {fields fields' : List (Field Decoder σ)}
    (h : List.Forall₂ (fun f g => f.name = g.name ∧ AgreeBelow d f.value g.value) fields fields')
    {items : List Value} (hd : ∀ item ∈ items, item.depth < d) (state : σ) :
    Decoder.storeItems fields items state = Decoder.storeItems fields' items state := by
  induction h generalizing items state with
  | nil => rfl
  | @cons f g fields fields' hfg _ ih =>
    cases items with
    | nil => rfl
    | cons item items =>
      rw [Decoder.storeItems, Decoder.storeItems, hfg.2 item (hd item List.mem_cons_self)]
      exact bind_congr fun store => ih (fun i hi => hd i (List.mem_cons_of_mem _ hi)) _

theorem record {r s : Record Decoder σ α} (h : r.Rel (AgreeBelow d) s) :
    AgreeBelow (d + 1) (Decoder.record r) (Decoder.record s) := by
  intro v hv
  cases v with
  | object ms =>
    rw [Value.depth] at hv
    have hm : ∀ m ∈ ms, ∀ state, member r state m = member s state m := by
      intro m hm state
      have := Value.depth_le_depthMembers hm
      refine (h.unseenField? state.1 m.1).bind_eq fun f g hfg => ?_
      cases hfg with
      | none => rfl
      | some hfg => simp only [hfg m.2 (by omega)]
    simp only [Decoder.record, ofMembers, foldlM_congr hm, h.start, h.finish]
  | array items =>
    rw [Value.depth] at hv
    have hi : ∀ item ∈ items, item.depth < d := by
      intro item hi
      have := Value.depth_le_depthItems hi
      omega
    simp only [Decoder.record, ofItems, storeItems h.fields hi, h.start, h.finish, h.missingItem,
      h.length_fields, Record.surplusItems]
  | _ => simp only [Decoder.record, h.title]

end Decoder.AgreeBelow

/-! ## Tagged nodes with the same tags -/

/-- The nodes differ in how their variants are decoded only, and that as `R` says. -/
structure Tagged.Rel (R : Decoder α → Decoder α → Prop) (t u : Tagged α) : Prop where
  title : t.title = u.title
  variants : List.Forall₂ (fun p q => p.1 = q.1 ∧ R p.2 q.2) t.variants u.variants

namespace Tagged.Rel

variable {R : Decoder α → Decoder α → Prop} {t u : Tagged α}

theorem names (h : t.Rel R u) : t.names = u.names := by
  have hv := h.variants
  unfold Tagged.names
  generalize t.variants = vs at hv ⊢
  generalize u.variants = ws at hv ⊢
  induction hv with
  | nil => rfl
  | cons hpq _ ih => rw [List.map_cons, List.map_cons, hpq.1, ih]

theorem named (h : t.Rel R u) (name : String) : Alike R (t.named name) (u.named name) := by
  have hv := h.variants
  have hl : Option.Rel R (t.variants.lookup name) (u.variants.lookup name) := by
    generalize t.variants = vs at hv ⊢
    generalize u.variants = ws at hv ⊢
    induction hv with
    | nil => exact .none
    | @cons p q vs ws hpq _ ih =>
      obtain ⟨n, f⟩ := p
      obtain ⟨n', g⟩ := q
      obtain ⟨rfl, hfg⟩ := hpq
      simp only [List.lookup_cons]
      cases name == n with
      | true => exact .some hfg
      | false => exact ih
  unfold Tagged.named
  rw [h.names]
  generalize t.variants.lookup name = x at hl ⊢
  generalize u.variants.lookup name = y at hl ⊢
  cases hl with
  | none => exact .error _
  | some hfg => exact .ok hfg

theorem numbered (h : t.Rel R u) (index : Nat) :
    Alike R (t.numbered index) (u.numbered index) := by
  have hv := h.variants
  have hi : Option.Rel (fun p q => p.1 = q.1 ∧ R p.2 q.2) t.variants[index]?
      u.variants[index]? := by
    generalize t.variants = vs at hv ⊢
    generalize u.variants = ws at hv ⊢
    induction hv generalizing index with
    | nil => exact .none
    | cons hpq _ ih =>
      cases index with
      | zero => exact .some hpq
      | succ index => exact ih index
  unfold Tagged.numbered
  rw [hv.length_eq]
  generalize t.variants[index]? = x at hi ⊢
  generalize u.variants[index]? = y at hi ⊢
  cases hi with
  | none => exact .error _
  | some hpq => exact .ok hpq.2

theorem ofTag (h : t.Rel R u) (tag : Value) : Alike R (t.ofTag tag) (u.ofTag tag) := by
  cases tag with
  | string name => exact h.named name
  | int n =>
    cases n with
    | ofNat index => exact h.numbered index
    | negSucc n => exact .error _
  | _ => exact .error _

theorem expected (h : t.Rel R u) : t.expected = u.expected :=
  congrArg ("internally tagged enum " ++ ·) h.title

end Tagged.Rel

theorem depthMembers_le_of_subset {ms ms' : List (String × Value)} (h : ∀ m ∈ ms, m ∈ ms') :
    Value.depthMembers ms ≤ Value.depthMembers ms' :=
  Value.depthMembers_le fun m hm => Value.depth_le_depthMembers (h m hm)

theorem Tagged.Rel.tagMember {R : Decoder α → Decoder α → Prop} {t u : Tagged α} (h : t.Rel R u)
    {ms : List (String × Value)} {m : String × Value} (hm : m ∈ ms)
    {s s' : Option (Decoder α) × List (String × Value)}
    (hs : Option.Rel R s.1 s'.1 ∧ s.2 = s'.2 ∧ ∀ m ∈ s.2, m ∈ ms) :
    Alike (fun s s' => Option.Rel R s.1 s'.1 ∧ s.2 = s'.2 ∧ ∀ m ∈ s.2, m ∈ ms)
      (Decoder.tagMember t s m) (Decoder.tagMember u s' m) := by
  obtain ⟨x, rest⟩ := s
  obtain ⟨y, rest'⟩ := s'
  obtain ⟨hv, rfl, hr⟩ := hs
  unfold Decoder.tagMember
  by_cases htag : m.1 = tagName
  · rw [if_pos htag, if_pos htag]
    cases hv with
    | none => exact (h.ofTag m.2).bind fun f g hfg => .ok ⟨.some hfg, rfl, hr⟩
    | some hfg => exact .error _
  · rw [if_neg htag, if_neg htag]
    refine .ok ⟨hv, rfl, fun m' hm' => ?_⟩
    rcases List.mem_cons.mp hm' with rfl | hm'
    · exact hm
    · exact hr m' hm'

theorem Decoder.AgreeBelow.tagged {d : Nat} {t u : Tagged α} (h : t.Rel (AgreeBelow d) u) :
    AgreeBelow d (Decoder.tagged t) (Decoder.tagged u) := by
  intro v hv
  cases v with
  | object ms =>
    refine (Alike.foldlM (fun m hm s s' hs => h.tagMember hm hs)
      ⟨.none, rfl, by simp⟩).bind_eq fun s s' hs => ?_
    obtain ⟨x, rest⟩ := s
    obtain ⟨y, rest'⟩ := s'
    obtain ⟨hxy, rfl, hr⟩ := hs
    cases hxy with
    | none => rfl
    | some hfg =>
      have hle : Value.depthMembers rest.reverse ≤ Value.depthMembers ms :=
        depthMembers_le_of_subset fun m hm => hr m (List.mem_reverse.mp hm)
      refine hfg _ ?_
      simp only [Value.depth] at hv ⊢
      omega
  | array items =>
    cases items with
    | nil => rfl
    | cons tag items =>
      refine (h.ofTag tag).bind_eq fun f g hfg => hfg _ ?_
      simp only [Value.depth, Value.depthItems] at hv ⊢
      omega
  | _ => exact congrArg (fun e => Except.error (Error.wrongType _ e)) h.expected

end IcuMessage.Json
