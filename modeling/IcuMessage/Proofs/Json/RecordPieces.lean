/-
A record, a list or a tagged node is taken from its piece of the text
(`Takes`), if its parts are. Two records of the same fields that store what
they read alike do so over the whole text.
-/
import IcuMessage.Proofs.Json.Pieces

namespace IcuMessage.Json

variable {α β σ τ : Type}

/-! ## Records -/

/-- What one reader has stored and the other stores keeps the states related. -/
def Stores (S : σ → τ → Prop) (room room' : Nat) (read : Reader (σ → σ))
    (read' : Reader (τ → τ)) : Prop :=
  Carries (fun store store' => ∀ s t, S s t → S (store s) (store' t)) (read room) (read' room')

theorem Carries.stores {R : α → β → Prop} {S : σ → τ → Prop} {room room' : Nat} {read : Reader α}
    {read' : Reader β} (h : Carries R (read room) (read' room')) {k : α → σ → σ} {k' : β → τ → τ}
    (hk : ∀ a b s t, R a b → S s t → S (k a s) (k' b t)) :
    Stores S room room' (k <$> read) (k' <$> read') := by
  intro text store rest hr
  obtain ⟨a, ha, rfl⟩ := Reader.ok_of_map hr
  obtain ⟨piece, b, rfl, hab, hne, hpiece⟩ := h ha
  refine ⟨piece, k' b, rfl, fun s t => hk a b s t hab, hne, fun more hm => ?_⟩
  show (read' room' (piece ++ more)).map _ = _
  rw [hpiece more hm]
  rfl

/-- Two records of the same fields, whose values are stored alike. -/
structure Record.Carries (S : σ → τ → Prop) (R : α → β → Prop) (room room' : Nat)
    (r : Record Reader σ α) (r' : Record Reader τ β) : Prop where
  fields : List.Forall₂ (fun f g => f.name = g.name ∧ Stores S room room' f.value g.value)
    r.fields r'.fields
  start : S r.start r'.start
  finish : ∀ missing missing' s t a, S s t → r.finish missing s = .ok a →
    ∃ b, r'.finish missing' t = .ok b ∧ R a b

section

variable {S : σ → τ → Prop} {R : α → β → Prop} {room room' : Nat} {r : Record Reader σ α}
  {r' : Record Reader τ β}

theorem Record.Carries.unseenField? (h : r.Carries S R room room' r') {seen : List String}
    {key : String} {x : Option (Field Reader σ)} (hx : r.unseenField? seen key = .ok x) :
    ∃ y, r'.unseenField? seen key = .ok y ∧
      Option.Rel (fun f g => Stores S room room' f.value g.value) x y := by
  have hf : Option.Rel (fun f g => Stores S room room' f.value g.value) (r.field? key)
      (r'.field? key) := find?_field_rel h.fields key
  rw [Record.unseenField?] at hx ⊢
  generalize r.field? key = f at hf hx
  generalize r'.field? key = g at hf
  cases hf with
  | none =>
    obtain rfl : none = x := Except.ok.inj hx
    exact ⟨none, rfl, .none⟩
  | some hfg =>
    simp only at hx ⊢
    split at hx
    · cases hx
    · rename_i hseen
      obtain rfl := Except.ok.inj hx
      exact ⟨_, if_neg hseen, .some hfg⟩

theorem Record.Carries.member (h : r.Carries S R room room' r') {s : List String × σ}
    {t : List String × τ} (hst : s.1 = t.1 ∧ S s.2 t.2) (key : String) :
    Json.Carries (fun s t => s.1 = t.1 ∧ S s.2 t.2) (Reader.member r room s key)
      (Reader.member r' room' t key) := by
  obtain ⟨seen, s⟩ := s
  obtain ⟨_, t⟩ := t
  obtain ⟨rfl, hst⟩ := hst
  intro text s' rest hm
  obtain ⟨x, hx, hm⟩ := bind_ok_iff.mp hm
  obtain ⟨y, hy, hxy⟩ := h.unseenField? hx
  cases hxy with
  | none =>
    obtain ⟨colon, hc, hm⟩ := bind_ok_iff.mp hm
    obtain ⟨mid, hv, hm⟩ := bind_ok_iff.mp hm
    obtain ⟨rfl, rfl⟩ : (seen, s) = s' ∧ mid = rest := by simpa using hm
    obtain ⟨colon, rfl, hne, hcolon⟩ := expectColon_piece hc
    obtain ⟨piece, rfl, -, hpiece⟩ := skipValue_piece hv
    refine ⟨colon ++ piece, (seen, t), by simp, ⟨rfl, hst⟩, by simp [hne], fun more hmore => ?_⟩
    simp only [List.append_assoc, Reader.member, hy, hcolon, ok_bind, hpiece more hmore]
  | some hfg =>
    obtain ⟨colon, hc, hm⟩ := bind_ok_iff.mp hm
    obtain ⟨⟨store, mid⟩, hv, hm⟩ := bind_ok_iff.mp hm
    obtain ⟨rfl, rfl⟩ : (key :: seen, store s) = s' ∧ mid = rest := by simpa using hm
    obtain ⟨colon, rfl, hne, hcolon⟩ := expectColon_piece hc
    obtain ⟨piece, store', rfl, hstore, -, hpiece⟩ := hfg hv
    refine ⟨colon ++ piece, (key :: seen, store' t), by simp, ⟨rfl, hstore s t hst⟩, by simp [hne],
      fun more hmore => ?_⟩
    simp only [List.append_assoc, Reader.member, hy, hcolon, ok_bind, hpiece more hmore]

theorem endList_ok_iff {text rest : List Char} :
    endList text = .ok rest ↔ skipBlanks text = ']' :: rest := by
  unfold endList
  split
  · rename_i h
    simp [h]
  · rename_i c inner h
    by_cases hc : c = ']'
    · simp [hc, h]
    · rw [if_neg hc, h]
      simp only [List.cons.injEq, hc, false_and, iff_false]
      split <;> simp

theorem endList_piece {text rest : List Char} (h : endList text = .ok rest) :
    ∃ piece, text = piece ++ rest ∧ piece ≠ [] ∧ ∀ more, endList (piece ++ more) = .ok more := by
  obtain ⟨blanks, hblanks, rfl⟩ := exists_blanks (endList_ok_iff.mp h)
  refine ⟨blanks ++ [']'], by simp, by simp, fun more => endList_ok_iff.mpr ?_⟩
  rw [List.append_assoc]
  exact hblanks.skip_cons (by decide) more

theorem endsNumber_of_storeItems {fields : List (Field Reader σ)} {text : List Char} {s : σ}
    {x : σ × List Char} (h : Reader.storeItems room fields false text s = .ok x) :
    EndsNumber text := by
  cases fields with
  | nil =>
    obtain ⟨mid, he, -⟩ := bind_ok_iff.mp h
    exact endsNumber_of_skipBlanks (endList_ok_iff.mp he) (.inr (.inl rfl))
  | cons field fields =>
    obtain ⟨next, hn, -⟩ := bind_ok_iff.mp h
    exact (nextItem_ok_iff.mp hn).endsNumber

theorem storeItems_piece {fields : List (Field Reader σ)} {fields' : List (Field Reader τ)}
    (hf : List.Forall₂ (fun f g => f.name = g.name ∧ Stores S room room' f.value g.value)
      fields fields') {isFirst : Bool} {text rest : List Char} {s s' : σ} {t : τ} (hst : S s t)
    (h : Reader.storeItems room fields isFirst text s = .ok (s', rest)) :
    ∃ piece t', text = piece ++ rest ∧ piece ≠ [] ∧ S s' t' ∧
      ∀ more, Reader.storeItems room' fields' isFirst (piece ++ more) t = .ok (t', more) := by
  induction hf generalizing isFirst text s t with
  | nil =>
    obtain ⟨mid, he, heq⟩ := bind_ok_iff.mp h
    obtain ⟨rfl, rfl⟩ : s = s' ∧ mid = rest := by simpa using heq
    obtain ⟨piece, rfl, hne, hpiece⟩ := endList_piece he
    exact ⟨piece, t, rfl, hne, hst, fun more => by simp [Reader.storeItems, hpiece]⟩
  | @cons f g fields fields' hfg _ ih =>
    obtain ⟨next, hn, hnext⟩ := bind_ok_iff.mp h
    rw [nextItem_ok_iff] at hn
    cases next with
    | close r =>
      obtain ⟨rfl, rfl⟩ : s = s' ∧ r = rest := by simpa using hnext
      obtain ⟨piece, rfl, hne, hpiece⟩ := hn.close_piece
      refine ⟨piece, t, rfl, hne, hst, fun more => ?_⟩
      rw [Reader.storeItems, nextItem_ok_iff.mpr (hpiece more)]
      rfl
    | item inner =>
      obtain ⟨⟨store, mid⟩, hv, hrest⟩ := bind_ok_iff.mp hnext
      obtain ⟨before, rfl, hbefore⟩ := hn.item_piece
      obtain ⟨item, store', rfl, hstore, hne, hitem⟩ := hfg.2 hv
      obtain ⟨piece, t', rfl, -, hst', hpiece⟩ := ih (hstore s t hst) hrest
      refine ⟨before ++ (item ++ piece), t', by simp, by simp [hne], hst', fun more => ?_⟩
      have hhead : (item ++ (piece ++ more)).head? = (item ++ (piece ++ rest)).head? := by
        obtain ⟨c, item, rfl⟩ := List.exists_cons_of_ne_nil hne
        rfl
      have hends : EndsNumber (piece ++ more) := endsNumber_of_storeItems (hpiece more)
      simp only [List.append_assoc, Reader.storeItems, nextItem_ok_iff.mpr (hbefore _ hhead),
        ok_bind, hitem _ hends, hpiece more]

/-- A record is taken from its piece of the text, if its fields are. It ends with a bracket of its
own, so anything may come after the piece. -/
theorem Record.Carries.record_piece (h : r.Carries S R room room' r') {text rest : List Char} {a : α}
    (hr : Reader.record r (room + 1) text = .ok (a, rest)) :
    ∃ piece b, text = piece ++ rest ∧ R a b ∧ piece ≠ [] ∧
      ∀ more, Reader.record r' (room' + 1) (piece ++ more) = .ok (b, more) := by
  unfold Reader.record at hr
  split at hr
  · rename_i inner hb
    obtain ⟨⟨⟨seen, s⟩, mid⟩, hms, hfinish⟩ := bind_ok_iff.mp hr
    obtain ⟨b, hs, heq⟩ := bind_ok_iff.mp hfinish
    obtain ⟨rfl, rfl⟩ : b = a ∧ mid = rest := by simpa using heq
    have hmember : ∀ (s : List String × σ) (t : List String × τ), s.1 = t.1 ∧ S s.2 t.2 →
        ∀ key, Json.Carries (fun s t => s.1 = t.1 ∧ S s.2 t.2) (Reader.member r room s key)
          (Reader.member r' room' t key) := fun _ _ => h.member
    obtain ⟨blanks, hblanks, rfl⟩ := exists_blanks hb
    have hstart : (([] : List String), r.start).1 = (([] : List String), r'.start).1 ∧
        S (([] : List String), r.start).2 (([] : List String), r'.start).2 := ⟨rfl, h.start⟩
    obtain ⟨piece, ⟨seen', t⟩, rfl, -, ⟨-, hst⟩, hpiece⟩ := foldMembers_piece hmember hstart hms
    obtain ⟨c, ht, hbc⟩ := h.finish .missingField .missingField s t b hst hs
    refine ⟨blanks ++ '{' :: piece, c, by simp, hbc, by simp, fun more => ?_⟩
    rw [List.append_assoc, List.cons_append, Reader.record, hblanks.skip_cons (by decide)]
    show Reader.members r' room' (piece ++ more) = _
    rw [Reader.members, hpiece more _ (by simp), ok_bind]
    show (r'.finish _ t >>= _) = _
    rw [ht, ok_bind]
  · rename_i inner hb
    obtain ⟨⟨s, mid⟩, hi, hfinish⟩ := bind_ok_iff.mp hr
    obtain ⟨b, hs, heq⟩ := bind_ok_iff.mp hfinish
    obtain ⟨rfl, rfl⟩ : b = a ∧ mid = rest := by simpa using heq
    obtain ⟨blanks, hblanks, rfl⟩ := exists_blanks hb
    obtain ⟨piece, t, rfl, -, hst, hpiece⟩ := storeItems_piece h.fields h.start hi
    obtain ⟨c, ht, hbc⟩ := h.finish r.missingItem r'.missingItem s t b hst hs
    refine ⟨blanks ++ '[' :: piece, c, by simp, hbc, by simp, fun more => ?_⟩
    rw [List.append_assoc, List.cons_append, Reader.record, hblanks.skip_cons (by decide)]
    show Reader.items r' room' (piece ++ more) = _
    rw [Reader.items, hpiece more, ok_bind]
    show (r'.finish _ t >>= _) = _
    rw [ht, ok_bind]
  · exact absurd hr (wrongType_ne_ok _ _ _)

theorem Record.Carries.record (h : r.Carries S R room room' r') :
    Json.Carries R (Reader.record r (room + 1)) (Reader.record r' (room' + 1)) := by
  intro text a rest hr
  obtain ⟨piece, b, htext, hab, hne, hpiece⟩ := h.record_piece hr
  exact ⟨piece, b, htext, hab, hne, fun more _ => hpiece more⟩

end

theorem Carries.list {R : α → β → Prop} {room room' : Nat} {item : Reader α} {item' : Reader β}
    (h : Carries R (item room) (item' room')) :
    Carries (List.Forall₂ R) (Reader.list item (room + 1)) (Reader.list item' (room' + 1)) := by
  intro text as rest hr
  unfold Reader.list at hr
  split at hr
  · rename_i inner hb
    obtain ⟨blanks, hblanks, rfl⟩ := exists_blanks hb
    obtain ⟨piece, bs, rfl, -, hbs, hpiece⟩ := readItems_piece h hr
    refine ⟨blanks ++ '[' :: piece, bs, by simp, hbs, by simp, fun more _ => ?_⟩
    rw [List.append_assoc, List.cons_append, Reader.list, hblanks.skip_cons (by decide)]
    exact hpiece more _ (by simp)
  · exact absurd hr (wrongType_ne_ok _ _ _)

/-- A whole text is taken as its front is. -/
theorem Carries.readAll {R : α → β → Prop} {read : Reader α} {read' : Reader β}
    (h : Carries R (read maxNesting) (read' maxNesting)) {text : List Char} {a : α}
    (ha : Reader.readAll read text = .ok a) : ∃ b, R a b ∧ Reader.readAll read' text = .ok b := by
  obtain ⟨blanks, hread, hblank⟩ := readAll_ok_iff.mp ha
  obtain ⟨piece, b, rfl, hab, -, hpiece⟩ := h hread
  have hends : EndsNumber blanks := by
    simpa using (blank_of_skipBlanks hblank).endsNumber .nil
  exact ⟨b, hab, readAll_ok_iff.mpr ⟨blanks, hpiece blanks hends, hblank⟩⟩

/-! ## Tagged nodes -/

theorem readValue_of_tag {t : Tagged α} {room : Nat} {text rest : List Char} {decode : Decoder α}
    (h : Reader.tag t text = .ok (decode, rest)) :
    ∃ name, readValue room text = .ok (.string name, rest) := by
  unfold Reader.tag at h
  split at h
  · rename_i inner hb
    obtain ⟨⟨name, mid⟩, hs, hn⟩ := bind_ok_iff.mp h
    obtain ⟨d, -, heq⟩ := bind_ok_iff.mp hn
    obtain ⟨-, rfl⟩ : d = decode ∧ mid = rest := by simpa using heq
    exact ⟨name, readValue_scalar hb (.string hs)⟩
  · exact absurd h (wrongType_ne_ok _ _ _)

/-- Where members are gone through, each from after its colon, there are members. -/
theorem members_of_steps {Q : List Char → α → List Char → Prop}
    {readMember : σ → String → List Char → Except Error (σ × List Char)}
    (hstep : ∀ s key text s' rest, readMember s key text = .ok (s', rest) →
      ∃ inner a, skipBlanks text = ':' :: inner ∧ Q inner a rest) {count : Nat} {isFirst : Bool}
    {text rest : List Char} {s s' : σ}
    (h : foldMembers readMember count isFirst text s = .ok (s', rest)) :
    ∃ ms, Members Q isFirst text ms rest := by
  induction count generalizing isFirst text s with
  | zero => simp [foldMembers] at h
  | succ count ih =>
    obtain ⟨next, hn, hnext⟩ := bind_ok_iff.mp h
    rw [nextMember_ok_iff] at hn
    cases next with
    | close r =>
      obtain ⟨-, rfl⟩ : s = s' ∧ r = rest := by simpa using hnext
      exact ⟨[], .close hn⟩
    | member key colon =>
      obtain ⟨⟨u, mid⟩, hm, hrest⟩ := bind_ok_iff.mp hnext
      obtain ⟨inner, a, hc, ha⟩ := hstep _ _ _ _ _ hm
      obtain ⟨ms, hms⟩ := ih hrest
      exact ⟨(key, a) :: ms, .member hn hc ha hms⟩

theorem value_of_tagMember {t : Tagged α} {room : Nat}
    {s s' : Option (Decoder α) × List (String × Value)} {key : String} {text rest : List Char}
    (h : Reader.tagMember t room s key text = .ok (s', rest)) :
    ∃ inner v, skipBlanks text = ':' :: inner ∧ Reads (readValue room) inner v rest := by
  unfold Reader.tagMember at h
  split at h
  · split at h
    · simp at h
    · obtain ⟨inner, hc, hm⟩ := bind_ok_iff.mp h
      obtain ⟨⟨d, mid⟩, htag, hm⟩ := bind_ok_iff.mp hm
      obtain ⟨-, rfl⟩ : (some d, s.2) = s' ∧ mid = rest := by simpa using hm
      obtain ⟨name, hname⟩ := readValue_of_tag htag
      exact ⟨inner, _, expectColon_ok_iff.mp hc, hname⟩
  · obtain ⟨⟨collected, mid⟩, hcollect, hm⟩ := bind_ok_iff.mp h
    obtain ⟨-, rfl⟩ : (s.1, collected) = s' ∧ mid = rest := by simpa using hm
    obtain ⟨inner, hc, hcollect⟩ := bind_ok_iff.mp hcollect
    obtain ⟨⟨v, mid'⟩, hv, hcollect⟩ := bind_ok_iff.mp hcollect
    obtain ⟨-, rfl⟩ : (key, v) :: s.2 = collected ∧ mid' = mid := by simpa using hcollect
    exact ⟨inner, v, expectColon_ok_iff.mp hc, hv⟩

/-- A tagged node that has been read could have been read as a value. -/
theorem readValue_of_tagged {t : Tagged α} {room : Nat} {text rest : List Char} {a : α}
    (h : Reader.tagged t (room + 1) text = .ok (a, rest)) :
    ∃ v, readValue (room + 1) text = .ok (v, rest) ∧ Decoder.streamedTagged t room v = .ok a := by
  obtain ⟨v, hv⟩ : ∃ v, readValue (room + 1) text = .ok (v, rest) := by
    unfold Reader.tagged at h
    split at h
    · rename_i inner hb
      obtain ⟨⟨s, mid⟩, hms, hfinish⟩ := bind_ok_iff.mp h
      obtain ⟨b, -, heq⟩ := bind_ok_iff.mp hfinish
      obtain ⟨-, rfl⟩ : b = a ∧ mid = rest := by simpa using heq
      obtain ⟨ms, hms⟩ := members_of_steps (fun _ _ _ _ _ => value_of_tagMember) hms
      exact ⟨_, readValue_of_valueAt (.object hb hms)⟩
    · rename_i inner hb
      obtain ⟨next, hn, hnext⟩ := bind_ok_iff.mp h
      cases next with
      | close => simp at hnext
      | item first =>
        obtain ⟨⟨d, mid⟩, htag, hrest⟩ := bind_ok_iff.mp hnext
        obtain ⟨⟨items, last⟩, hi, hrest⟩ := bind_ok_iff.mp hrest
        obtain ⟨b, -, heq⟩ := bind_ok_iff.mp hrest
        obtain ⟨-, rfl⟩ : b = a ∧ last = rest := by simpa using heq
        obtain ⟨name, hname⟩ := readValue_of_tag htag
        exact ⟨_, readValue_of_valueAt (.array hb
          (.item (nextItem_ok_iff.mp hn) hname (items_of_readItems hi)))⟩
    · exact absurd h (wrongType_ne_ok _ _ _)
  refine ⟨v, hv, ?_⟩
  rw [Reader.Follows.tagged t hv] at h
  obtain ⟨b, hb, heq⟩ := map_ok_iff.mp h
  obtain ⟨rfl, -⟩ := Prod.mk.inj heq
  exact hb

end IcuMessage.Json
