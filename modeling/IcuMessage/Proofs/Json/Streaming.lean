/-
The readers that go over a text, on texts that could be read as values: what
such a reader gets from the text is what a decoder makes of the value
(`Reader.Follows`). A list is decoded as any list is (`Follows.list`). A record
and a tagged node are decoded in the order of the text, which matters where an
array has more items than the record has fields, and where the tag is no name
(`Follows.record`, `Follows.tagged`).
-/
import IcuMessage.Json.Reader
import IcuMessage.Proofs.Json.Agreement

namespace IcuMessage.Json

variable {σ α β : Type}

/-! ## Decoding in the order of the text -/

namespace Decoder

/-- The array has to end with the last field, and is checked for that before the record is
finished. -/
def streamedItems (r : Record Decoder σ α) (items : List Value) : Except Error α := do
  let state ← storeItems r.fields items r.start
  if r.fields.length < items.length then fail .trailingCharacters
  else r.finish r.missingItem state

def streamedRecord (r : Record Decoder σ α) : Decoder α
  | .object members => ofMembers r members
  | .array items => streamedItems r items
  | value => .error (.wrongType value.found r.title)

/-- A tag has to be a name. -/
def streamedTag (t : Tagged α) : Value → Except Error (Decoder α)
  | .string name => t.named name
  | tag => .error (.wrongType tag.found "variant identifier")

def streamedTagMember (t : Tagged α) (room : Nat)
    (state : Option (Decoder α) × List (String × Value)) (m : String × Value) :
    Except Error (Option (Decoder α) × List (String × Value)) :=
  if m.1 = tagName then
    if state.1.isSome then .error (.duplicateField tagName)
    else do
      let variant ← streamedTag t m.2
      .ok (some variant, state.2)
  else (collectWithin room state.2 m).map fun rest => (state.1, rest)

/-- What is not the tag may have containers nested as deep as there is room. -/
def streamedTagged (t : Tagged α) (room : Nat) : Decoder α
  | .object members => do
    let (variant, rest) ← members.foldlM (streamedTagMember t room) (none, [])
    Tagged.untagged variant (.object rest.reverse)
  | .array (tag :: items) => do
    let variant ← streamedTag t tag
    let items ← items.mapM (Value.within room)
    variant (.array items)
  | .array [] => .error (.missingField tagName)
  | value => .error (.wrongType value.found t.expected)

end Decoder

/-! ## Readers -/

/-- Where a value stands, the reader gets what the decoder makes of the value. -/
def Reader.Follows (read : Reader α) (room : Nat) (decode : Decoder α) : Prop :=
  ∀ ⦃big : Nat⦄ ⦃text rest : List Char⦄ ⦃v : Value⦄, readValue big text = .ok (v, rest) →
    read room text = (decode v).map (·, rest)

theorem wrongType_of_readValue {big : Nat} {text rest : List Char} {v : Value}
    (h : readValue big text = .ok (v, rest)) (expected : String) :
    (Reader.wrongType expected text : Except Error β) = .error (.wrongType v.found expected) := by
  cases valueAt_of_readValue h with
  | array hb _ | object hb _ =>
    rw [Reader.wrongType, hb]
    rfl
  | scalar hb hs =>
    obtain ⟨c, inner, heq, ha, ho, -⟩ := hs.head
    rw [heq] at hb hs
    rw [Reader.wrongType, hb]
    split
    · rename_i hc
      exact absurd (List.cons.inj hc).1 ha
    · rename_i hc
      exact absurd (List.cons.inj hc).1 ho
    · rw [readScalar_ok_iff.mpr hs]
      rfl

/-- Where a scalar stands, a reader of containers refuses it. -/
theorem wrongType_of_scalarAt {big : Nat} {text scalar rest : List Char} {v : Value}
    (hv : readValue big text = .ok (v, rest)) (hb : skipBlanks text = scalar)
    (hs : ScalarAt scalar v rest) (object array : List Char → Except Error β) (expected : String) :
    (match skipBlanks text with
      | '{' :: inner => object inner
      | '[' :: inner => array inner
      | _ => Reader.wrongType expected text) = .error (.wrongType v.found expected) := by
  obtain ⟨c, inner, rfl, ha, ho, -⟩ := hs.head
  rw [hb]
  split
  · rename_i hc
    exact absurd (List.cons.inj hc).1 ho
  · rename_i hc
    exact absurd (List.cons.inj hc).1 ha
  · exact wrongType_of_readValue hv _

namespace Reader.Follows

variable {room : Nat}

theorem map {read : Reader α} {decode : Decoder α} (h : read.Follows room decode) (f : α → β) :
    Reader.Follows (f <$> read) room (f <$> decode) := by
  intro big text rest v hv
  show (read room text).map _ = ((decode v).map f).map _
  rw [h hv]
  cases decode v <;> rfl

theorem list {item : Reader α} {decode : Decoder α} (h : item.Follows room decode) :
    (Reader.list item).Follows (room + 1) (Decoder.list decode) := by
  intro big text rest v hv
  cases valueAt_of_readValue hv with
  | @array big _ inner _ items hb hi =>
    simp only [Reader.list, hb]
    exact hi.readItems_eq (progress_readValue big) decode (fun _ _ _ hr => h hr) (Nat.le_refl _)
  | object hb _ =>
    simp only [Reader.list, hb]
    exact wrongType_of_readValue hv _
  | scalar hb hs =>
    obtain ⟨c, inner, heq, ha, -⟩ := hs.head
    have hd : Decoder.list decode v = .error (.wrongType v.found "a sequence") := by
      cases v with
      | array items => exact absurd hs.depth (Nat.succ_ne_zero _)
      | _ => rfl
    rw [Reader.list, hb, heq, hd]
    split
    · rename_i hc
      exact absurd (List.cons.inj hc).1 ha
    · exact wrongType_of_readValue hv _

/-! ## Records -/

theorem endList_of_item {big : Nat} {isFirst : Bool} {text inner mid : List Char} {v : Value}
    (h : ItemAt isFirst text (.item inner)) (hv : readValue big inner = .ok (v, mid)) :
    endList text = fail .trailingCharacters := by
  cases h with
  | first h hc =>
    obtain ⟨c, rest, hs, -, hcomma⟩ := head_of_readValue hv
    rw [← h, skipBlanks_skipBlanks, h] at hs
    obtain ⟨rfl, rfl⟩ := List.cons.inj hs
    simp [endList, h, hc, hcomma]
  | next h hi hc => simp [endList, h, hi, hc]

theorem storeItems {fields : List (Field Reader σ)} {fields' : List (Field Decoder σ)}
    (h : List.Forall₂ (fun f g => f.name = g.name ∧ Reader.Follows f.value room g.value)
      fields fields')
    {big : Nat} {isFirst : Bool} {text rest : List Char} {items : List Value}
    (hi : Items (Reads (readValue big)) isFirst text items rest) (state : σ) :
    Reader.storeItems room fields isFirst text state =
      (Decoder.storeItems fields' items state >>= fun state =>
        if fields'.length < items.length then fail .trailingCharacters else .ok (state, rest)) := by
  induction h generalizing isFirst text items state with
  | nil =>
    cases hi with
    | close h =>
      cases h with
      | close h => simp [Reader.storeItems, Decoder.storeItems, endList, h]
    | item h hv _ => simp [Reader.storeItems, Decoder.storeItems, endList_of_item h hv]
  | @cons f g fields fields' hfg _ ih =>
    cases hi with
    | close h => simp [Reader.storeItems, Decoder.storeItems, nextItem_ok_iff.mpr h]
    | @item _ _ inner mid _ v items h hv hvs =>
      rw [Reader.storeItems, Decoder.storeItems, nextItem_ok_iff.mpr h]
      simp only [ok_bind, hfg.2 hv]
      cases g.value v with
      | error e => rfl
      | ok store =>
        simp only [map_ok, ok_bind, ih hvs, List.length_cons, Nat.add_lt_add_iff_right]

theorem record {r : Record Reader σ α} {s : Record Decoder σ α}
    (h : r.Rel (fun read decode => Reader.Follows read room decode) s) :
    (Reader.record r).Follows (room + 1) (Decoder.streamedRecord s) := by
  intro big text rest v hv
  cases valueAt_of_readValue hv with
  | @array big _ inner _ items hb hi =>
    simp only [Reader.record, hb]
    show Reader.items r room inner = _
    rw [Reader.items, h.start, storeItems h.fields hi, h.finish, h.missingItem]
    show _ = (Decoder.streamedItems s items).map _
    rw [Decoder.streamedItems]
    cases Decoder.storeItems s.fields items s.start with
    | error e => rfl
    | ok state =>
      simp only [ok_bind]
      split
      · rfl
      · simp only [ok_bind]
        cases s.finish s.missingItem state <;> rfl
  | @object big _ inner _ ms hb hm =>
    simp only [Reader.record, hb]
    show Reader.members r room inner = _
    have hmember : ∀ state key colon inner a rest, skipBlanks colon = ':' :: inner →
        Reads (readValue big) inner a rest → Reader.member r room state key colon =
          (Decoder.member s state (key, a)).map (·, rest) := by
      intro state key colon inner a rest hc ha
      rw [Reader.member, Decoder.member]
      have hf := h.unseenField? state.1 key
      generalize r.unseenField? state.1 key = x at hf ⊢
      generalize s.unseenField? state.1 key = y at hf ⊢
      cases hf with
      | error e => rfl
      | ok hfg =>
        cases hfg with
        | none => simp [expectColon_ok_iff.mpr hc, skipValue_of_readValue ha]
        | @some f g hfg =>
          simp only [ok_bind, expectColon_ok_iff.mpr hc, hfg ha]
          cases g.value a <;> rfl
    rw [Reader.members, hm.foldMembers_eq (progress_readValue big) (Decoder.member s) hmember
      (Nat.le_refl _), h.start, h.finish]
    show _ = (Decoder.ofMembers s ms).map _
    rw [Decoder.ofMembers]
    cases ms.foldlM (Decoder.member s) ([], s.start) with
    | error e => rfl
    | ok state =>
      simp only [map_ok, ok_bind]
      cases s.finish .missingField state.2 <;> rfl
  | scalar hb hs =>
    have hd : Decoder.streamedRecord s v = .error (.wrongType v.found s.title) := by
      cases v with
      | array items => exact absurd hs.depth (Nat.succ_ne_zero _)
      | object ms => exact absurd hs.depth (Nat.succ_ne_zero _)
      | _ => rfl
    rw [hd, ← h.title]
    exact wrongType_of_scalarAt hv hb hs _ _ _

/-! ## Tagged nodes -/

theorem tag_of_readValue (t : Tagged α) {big : Nat} {text rest : List Char} {v : Value}
    (hv : readValue big text = .ok (v, rest)) :
    Reader.tag t text = (Decoder.streamedTag t v).map (·, rest) := by
  cases valueAt_of_readValue hv with
  | array hb _ | object hb _ =>
    simp only [Reader.tag, hb]
    exact wrongType_of_readValue hv _
  | scalar hb hs =>
    cases hs with
    | null | true | false =>
      simp only [Reader.tag, hb]
      exact wrongType_of_readValue hv _
    | @string inner _ name hn =>
      simp only [Reader.tag, hb, hn, ok_bind, Decoder.streamedTag]
      cases t.named name <;> rfl
    | @number inner _ c l _ hc hl hlv =>
      obtain ⟨-, -, -, hq, -⟩ := number_head hc
      have hd : Decoder.streamedTag t v = .error (.wrongType v.found "variant identifier") := by
        obtain ⟨n, rfl⟩ | ⟨bits, rfl⟩ := l.value_ok hlv <;> rfl
      rw [Reader.tag, hb, hd]
      split
      · rename_i hc
        exact absurd (List.cons.inj hc).1 hq
      · exact wrongType_of_readValue hv _

theorem tagMember (t : Tagged α) {big : Nat} {state : Option (Decoder α) × List (String × Value)}
    {key : String} {colon inner rest : List Char} {v : Value} (hc : skipBlanks colon = ':' :: inner)
    (hv : readValue big inner = .ok (v, rest)) : Reader.tagMember t room state key colon =
      (Decoder.streamedTagMember t room state (key, v)).map (·, rest) := by
  unfold Reader.tagMember Decoder.streamedTagMember
  by_cases hk : key = tagName
  · rw [if_pos hk, if_pos hk]
    split
    · rfl
    · simp only [expectColon_ok_iff.mpr hc, ok_bind, tag_of_readValue t hv]
      cases Decoder.streamedTag t v <;> rfl
  · rw [if_neg hk, if_neg hk, collectMember_eq hc (readValue_eq_within hv room)]
    cases collectWithin room state.2 (key, v) <;> rfl

theorem tagged (t : Tagged α) :
    (Reader.tagged t).Follows (room + 1) (Decoder.streamedTagged t room) := by
  intro big text rest v hv
  cases valueAt_of_readValue hv with
  | @array big _ inner _ items hb hi =>
    simp only [Reader.tagged, hb]
    show Reader.taggedItems t room inner = _
    rw [Reader.taggedItems]
    cases hi with
    | close h =>
      rw [nextItem_ok_iff.mpr h]
      rfl
    | @item _ _ first mid _ v items h ha hvs =>
      simp only [nextItem_ok_iff.mpr h, ok_bind, tag_of_readValue t ha, Decoder.streamedTagged]
      cases Decoder.streamedTag t v with
      | error e => rfl
      | ok variant =>
        simp only [map_ok, ok_bind, hvs.readItems_eq (progress_readValue big) (Value.within room)
          (fun _ _ _ ha => readValue_eq_within ha room) (Nat.le_refl _)]
        cases items.mapM (Value.within room) with
        | error e => rfl
        | ok items =>
          simp only [map_ok, ok_bind]
          cases variant (.array items) <;> rfl
  | @object big _ inner _ ms hb hm =>
    simp only [Reader.tagged, hb]
    show Reader.taggedMembers t room inner = _
    rw [Reader.taggedMembers, hm.foldMembers_eq (progress_readValue big)
      (Decoder.streamedTagMember t room) (fun _ _ _ _ _ _ hc ha => tagMember t hc ha)
      (Nat.le_refl _)]
    show _ = Except.map _ (Decoder.streamedTagged t room (.object ms))
    rw [Decoder.streamedTagged]
    cases ms.foldlM (Decoder.streamedTagMember t room) (none, []) with
    | error e => rfl
    | ok state =>
      simp only [map_ok, ok_bind]
      cases Tagged.untagged state.1 (.object state.2.reverse) <;> rfl
  | scalar hb hs =>
    have hd : Decoder.streamedTagged t room v = .error (.wrongType v.found t.expected) := by
      cases v with
      | array items => exact absurd hs.depth (Nat.succ_ne_zero _)
      | object ms => exact absurd hs.depth (Nat.succ_ne_zero _)
      | _ => rfl
    rw [hd]
    exact wrongType_of_scalarAt hv hb hs _ _ _

end Reader.Follows

/-- A text that stands for a value, with blanks at most after it, is read as the value is
decoded. -/
theorem readAll_of_readValue {read : Reader α} {decode : Decoder α}
    (h : read.Follows maxNesting decode) {big : Nat} {text rest : List Char} {v : Value}
    (hv : readValue big text = .ok (v, rest)) (hr : skipBlanks rest = []) :
    Reader.readAll read text = decode v := by
  rw [Reader.readAll, h hv]
  cases decode v with
  | error e => rfl
  | ok a => simp [hr]

/-! ## Records whose fields agree -/

theorem Decoder.AgreeBelow.streamedRecord {d : Nat} {r s : Record Decoder σ α}
    (h : r.Rel (AgreeBelow d) s) :
    AgreeBelow (d + 1) (Decoder.streamedRecord r) (Decoder.streamedRecord s) := by
  intro v hv
  cases v with
  | object ms => exact AgreeBelow.record h (.object ms) hv
  | array items =>
    rw [Value.depth] at hv
    have hi : ∀ item ∈ items, item.depth < d := by
      intro item hi
      have := Value.depth_le_depthItems hi
      omega
    simp only [Decoder.streamedRecord, Decoder.streamedItems, storeItems h.fields hi, h.start,
      h.finish, h.missingItem, h.length_fields]
  | _ => simp only [Decoder.streamedRecord, h.title]

/-! ## Where the tag stands -/

namespace Decoder

variable {t : Tagged α} {name : String} {ms : List (String × Value)}

theorem foldlM_tagMember (h : ∀ m ∈ ms, m.1 ≠ tagName) (variant : Option (Decoder α))
    (rest : List (String × Value)) :
    ms.foldlM (tagMember t) (variant, rest) = .ok (variant, ms.reverse ++ rest) := by
  induction ms generalizing rest with
  | nil => rfl
  | cons m ms ih =>
    rw [List.foldlM_cons, tagMember, if_neg (h m List.mem_cons_self), ok_bind,
      ih fun m hm => h m (List.mem_cons_of_mem _ hm)]
    simp

theorem tagged_tagAmong {before after : List (String × Value)} (hb : ∀ m ∈ before, m.1 ≠ tagName)
    (ha : ∀ m ∈ after, m.1 ≠ tagName) :
    tagged t (.object (before ++ (tagName, .string name) :: after)) =
      (t.named name >>= fun decode => decode (.object (before ++ after))) := by
  rw [tagged, List.foldlM_append, foldlM_tagMember hb, ok_bind, List.foldlM_cons, tagMember,
    if_pos rfl, Tagged.ofTag]
  cases t.named name with
  | error e => rfl
  | ok decode =>
    simp [foldlM_tagMember ha, Tagged.untagged]

theorem tagged_tagFirst (h : ∀ m ∈ ms, m.1 ≠ tagName) :
    tagged t (.object ((tagName, .string name) :: ms)) =
      (t.named name >>= fun decode => decode (.object ms)) :=
  tagged_tagAmong (List.forall_mem_nil _) h

theorem foldlM_streamedTagMember (h : ∀ m ∈ ms, m.1 ≠ tagName) (room : Nat)
    (variant : Option (Decoder α)) (rest : List (String × Value)) :
    ms.foldlM (streamedTagMember t room) (variant, rest) =
      (ms.foldlM (collectWithin room) rest).map fun rest => (variant, rest) := by
  induction ms generalizing rest with
  | nil => rfl
  | cons m ms ih =>
    rw [List.foldlM_cons, List.foldlM_cons, streamedTagMember, if_neg (h m List.mem_cons_self)]
    cases collectWithin room rest m with
    | error e => rfl
    | ok rest => exact ih (fun m hm => h m (List.mem_cons_of_mem _ hm)) rest

theorem streamedTagged_tagFirst (h : ∀ m ∈ ms, m.1 ≠ tagName) (room : Nat) :
    streamedTagged t room (.object ((tagName, .string name) :: ms)) =
      (t.named name >>= fun decode =>
        if Value.depthMembers ms ≤ room then decode (.object ms) else fail .nestingTooDeep) := by
  rw [streamedTagged, List.foldlM_cons, streamedTagMember, if_pos rfl, streamedTag]
  cases t.named name with
  | error e => rfl
  | ok decode =>
    simp only [ok_bind, Option.isSome_none, Bool.false_eq_true, if_false,
      foldlM_streamedTagMember h, foldlM_collectWithin]
    split
    · simp [Tagged.untagged]
    · rfl

end Decoder

/-! ## Where the tag is no number -/

/-- What tells a tagged node's variant, if anything does. -/
def Value.tag? : Value → Option Value
  | .object members => members.lookup tagName
  | .array (tag :: _) => some tag
  | _ => none

def Value.isNumber : Value → Bool
  | .int _ | .float _ => true
  | _ => false

namespace Decoder

theorem streamedTag_eq (t : Tagged α) {tag : Value} (h : tag.isNumber = false) :
    streamedTag t tag = t.ofTag tag := by
  cases tag with
  | int => simp [Value.isNumber] at h
  | float => simp [Value.isNumber] at h
  | _ => rfl

/-- Only the first tag can make a difference, since a second one is refused as such. -/
theorem foldlM_streamedTagMember_eq (t : Tagged α) {room : Nat} {ms : List (String × Value)}
    (hd : ∀ m ∈ ms, m.2.depth ≤ room) (state : Option (Decoder α) × List (String × Value))
    (ht : state.1 = none → ∀ tag ∈ ms.lookup tagName, tag.isNumber = false) :
    ms.foldlM (streamedTagMember t room) state = ms.foldlM (tagMember t) state := by
  induction ms generalizing state with
  | nil => rfl
  | cons m ms ih =>
    obtain ⟨key, v⟩ := m
    obtain ⟨variant, rest⟩ := state
    have hms : ∀ m ∈ ms, m.2.depth ≤ room := fun m hm => hd m (List.mem_cons_of_mem _ hm)
    rw [List.foldlM_cons, List.foldlM_cons, streamedTagMember, tagMember]
    by_cases hk : key = tagName
    · rw [if_pos hk, if_pos hk]
      cases variant with
      | some decode => rfl
      | none =>
        have hv : v.isNumber = false := ht rfl v (by simp [hk])
        simp only [Option.isSome_none, Bool.false_eq_true, if_false, streamedTag_eq t hv]
        cases t.ofTag v with
        | error e => rfl
        | ok decode => exact ih hms _ (fun h => nomatch h)
    · have hwithin : collectWithin room rest (key, v) = .ok ((key, v) :: rest) := by
        rw [collectWithin, Value.within, if_pos (hd (key, v) List.mem_cons_self), map_ok]
      rw [if_neg hk, if_neg hk]
      simp only [hwithin, map_ok, ok_bind]
      refine ih hms _ fun hnone tag htag => ht hnone tag ?_
      rw [List.lookup_cons, beq_false_of_ne (Ne.symm hk)]
      exact htag

theorem streamedTagged_eq_tagged (t : Tagged α) {room : Nat} {v : Value} (hd : v.depth ≤ room + 1)
    (ht : ∀ tag ∈ v.tag?, tag.isNumber = false) : streamedTagged t room v = tagged t v := by
  cases v with
  | object ms =>
    have hms : ∀ m ∈ ms, m.2.depth ≤ room := fun m hm =>
      Nat.le_trans (Value.depth_le_depthMembers hm) (Nat.le_of_succ_le_succ hd)
    rw [streamedTagged, tagged, foldlM_streamedTagMember_eq t hms (none, []) fun _ => ht]
  | array items =>
    cases items with
    | nil => rfl
    | cons tag items =>
      have hitems : Value.depthItems items ≤ room :=
        Nat.le_trans (Nat.le_max_right _ _) (Nat.le_of_succ_le_succ hd)
      rw [streamedTagged, tagged, streamedTag_eq t (ht tag rfl), mapM_within, if_pos hitems]
      rfl
  | _ => rfl

/-- Before the tag nothing can go wrong, as far as there is room. -/
theorem streamedTagged_of_number (t : Tagged α) {room : Nat} {v tag : Value}
    (hd : v.depth ≤ room + 1) (ht : v.tag? = some tag) (hn : tag.isNumber = true) :
    streamedTagged t room v = .error (.wrongType tag.found "variant identifier") := by
  have hwrong : streamedTag t tag = .error (.wrongType tag.found "variant identifier") := by
    cases tag with
    | string => simp [Value.isNumber] at hn
    | _ => rfl
  cases v with
  | object ms =>
    obtain ⟨before, after, rfl, hb⟩ := List.lookup_eq_some_iff.mp ht
    have hbefore : ∀ m ∈ before, m.1 ≠ tagName := fun m hm heq => by
      simpa [heq] using hb m hm
    have hdepth : Value.depthMembers before ≤ room :=
      Nat.le_trans (depthMembers_le_of_subset fun m hm => List.mem_append_left _ hm)
        (Nat.le_of_succ_le_succ hd)
    rw [streamedTagged, List.foldlM_append, foldlM_streamedTagMember hbefore, foldlM_collectWithin,
      if_pos hdepth, map_ok, ok_bind, List.foldlM_cons, streamedTagMember, if_pos rfl, hwrong]
    rfl
  | array items =>
    cases items with
    | nil => simp [Value.tag?] at ht
    | cons first items =>
      obtain rfl : first = tag := Option.some.inj ht
      rw [streamedTagged, hwrong, error_bind]
  | _ => simp [Value.tag?] at ht

/-! ## What is streamed is decoded -/

theorem foldlM_ok_of_imp {ε : Type} {f g : σ → β → Except ε σ}
    (hfg : ∀ s b s', f s b = .ok s' → g s b = .ok s') {bs : List β} {s s' : σ}
    (h : bs.foldlM f s = .ok s') : bs.foldlM g s = .ok s' := by
  induction bs generalizing s with
  | nil => exact h
  | cons b bs ih =>
    rw [List.foldlM_cons] at h ⊢
    obtain ⟨mid, hb, h⟩ := bind_ok_iff.mp h
    rw [hfg _ _ _ hb, ok_bind, ih h]

theorem record_of_streamedRecord {r : Record Decoder σ α} {v : Value} {a : α}
    (h : streamedRecord r v = .ok a) : record r v = .ok a := by
  cases v with
  | object ms => exact h
  | array items =>
    obtain ⟨state, hs, h⟩ := bind_ok_iff.mp (show streamedItems r items = .ok a from h)
    split at h
    · simp at h
    · rename_i hl
      show ofItems r items = .ok a
      rw [ofItems, hs, ok_bind, h, ok_bind, if_neg hl]
  | _ => simp [streamedRecord] at h

theorem ofTag_of_streamedTag {t : Tagged α} {tag : Value} {decode : Decoder α}
    (h : streamedTag t tag = .ok decode) : t.ofTag tag = .ok decode := by
  cases tag with
  | string name => exact h
  | _ => simp [streamedTag] at h

theorem eq_of_within {room : Nat} {v w : Value} (h : v.within room = .ok w) : w = v := by
  rw [Value.within] at h
  split at h
  · exact (Except.ok.inj h).symm
  · simp at h

theorem tagMember_of_streamedTagMember {t : Tagged α} {room : Nat}
    {s s' : Option (Decoder α) × List (String × Value)} {m : String × Value}
    (h : streamedTagMember t room s m = .ok s') : tagMember t s m = .ok s' := by
  unfold streamedTagMember at h
  unfold tagMember
  split at h
  · rename_i hk
    rw [if_pos hk]
    split at h
    · simp at h
    · rename_i hs
      obtain ⟨decode, hdecode, h⟩ := bind_ok_iff.mp h
      rw [if_neg hs, ofTag_of_streamedTag hdecode, ok_bind, h]
  · rename_i hk
    obtain ⟨rest, hrest, rfl⟩ := map_ok_iff.mp h
    obtain ⟨v, hv, rfl⟩ := map_ok_iff.mp hrest
    rw [if_neg hk, eq_of_within hv]

theorem tagged_of_streamedTagged {t : Tagged α} {room : Nat} {v : Value} {a : α}
    (h : streamedTagged t room v = .ok a) : tagged t v = .ok a := by
  cases v with
  | object ms =>
    obtain ⟨s, hs, h⟩ := bind_ok_iff.mp h
    have hfold : ms.foldlM (tagMember t) (none, []) = .ok s :=
      foldlM_ok_of_imp (fun _ _ _ => tagMember_of_streamedTagMember) hs
    rw [tagged, hfold, ok_bind]
    exact h
  | array items =>
    cases items with
    | nil => exact h
    | cons tag items =>
      obtain ⟨decode, hdecode, h⟩ := bind_ok_iff.mp h
      obtain ⟨items', hitems, h⟩ := bind_ok_iff.mp h
      rw [mapM_within] at hitems
      split at hitems
      · obtain rfl := Except.ok.inj hitems
        rw [tagged, ofTag_of_streamedTag hdecode, ok_bind, h]
      · simp at hitems
  | _ => simp [streamedTagged] at h

end Decoder

end IcuMessage.Json
