/-
What a success of a reader that goes over a text says about what it got. The
text need not stand for a value: a member passed over may be nested without
limit. What is kept of a tagged node is read as values, though, within the room
there is (`tagged_ok`), and a list or a record consists of what was read for
its items or fields (`list_ok`, `record_ok`).
-/
import IcuMessage.Json.Reader
import IcuMessage.Proofs.Json.Decoded

namespace IcuMessage.Json

variable {α β σ : Type}

/-- A value that has been read within some room is not nested deeper. -/
theorem depth_le_of_readValue {room : Nat} {text rest : List Char} {v : Value}
    (h : readValue room text = .ok (v, rest)) : v.depth ≤ room := by
  have hw := readValue_eq_within h room
  rw [h, Value.within] at hw
  by_cases hd : v.depth ≤ room
  · exact hd
  · simp [hd] at hw

theorem mem_of_readItems {readItem : List Char → Except Error (α × List Char)} {count : Nat}
    {isFirst : Bool} {text rest : List Char} {as : List α}
    (h : readItems readItem count isFirst text = .ok (as, rest)) :
    ∀ a ∈ as, ∃ text rest, readItem text = .ok (a, rest) := by
  intro a ha
  have hi := items_of_readItems h
  clear h
  induction hi with
  | close => simp at ha
  | item _ hr _ ih =>
    rcases List.mem_cons.mp ha with rfl | ha
    · exact ⟨_, _, hr⟩
    · exact ih ha

theorem foldMembers_invariant {readMember : σ → String → List Char → Except Error (σ × List Char)}
    (I : σ → Prop) (hI : ∀ s key text s' rest, I s → readMember s key text = .ok (s', rest) → I s')
    {count : Nat} {isFirst : Bool} {text rest : List Char} {s s' : σ} (hs : I s)
    (h : foldMembers readMember count isFirst text s = .ok (s', rest)) : I s' := by
  induction count generalizing isFirst text s with
  | zero => simp [foldMembers] at h
  | succ count ih =>
    obtain ⟨next, -, h⟩ := bind_ok_iff.mp h
    cases next with
    | close r =>
      obtain ⟨rfl, -⟩ : s = s' ∧ _ := by simpa using h
      exact hs
    | member key r =>
      obtain ⟨⟨mid, r'⟩, hm, h⟩ := bind_ok_iff.mp h
      exact ih (hI _ _ _ _ _ hs hm) h

theorem wrongType_ne_ok (expected : String) (text : List Char) (b : β) :
    Reader.wrongType expected text ≠ .ok b := by
  unfold Reader.wrongType
  split
  · nofun
  · nofun
  · intro h
    obtain ⟨_, -, h⟩ := bind_ok_iff.mp h
    nomatch h

namespace Reader

variable {room : Nat} {text rest : List Char}

theorem enter_ok {inside : Reader α} {a : α} (h : enter inside room text = .ok (a, rest)) :
    ∃ n, room = n + 1 ∧ inside n text = .ok (a, rest) := by
  cases room with
  | zero => simp [enter] at h
  | succ n => exact ⟨n, rfl, h⟩

theorem list_ok {item : Reader α} {as : List α} (h : list item room text = .ok (as, rest)) :
    ∃ n, room = n + 1 ∧ ∀ a ∈ as, ∃ text rest, item n text = .ok (a, rest) := by
  unfold list at h
  split at h
  · obtain ⟨n, hn, h⟩ := enter_ok h
    exact ⟨n, hn, mem_of_readItems h⟩
  · exact absurd h (wrongType_ne_ok _ _ _)

theorem ok_of_map {k : α → β} {read : Reader α} {b : β}
    (h : (k <$> read) room text = .ok (b, rest)) :
    ∃ a, read room text = .ok (a, rest) ∧ k a = b := by
  obtain ⟨⟨a, r⟩, hr, h⟩ := map_ok_iff.mp h
  obtain ⟨rfl, rfl⟩ := Prod.mk.inj h
  exact ⟨a, hr, rfl⟩

theorem storeItems_ok (I : σ → Prop) {fields : List (Field Reader σ)} {isFirst : Bool}
    (hf : ∀ field ∈ fields, ∀ text store rest, field.value room text = .ok (store, rest) →
      ∀ state, I state → I (store state)) {state state' : σ} (hs : I state)
    (h : storeItems room fields isFirst text state = .ok (state', rest)) : I state' := by
  induction fields generalizing isFirst text state with
  | nil =>
    obtain ⟨r, -, h⟩ := bind_ok_iff.mp h
    obtain ⟨rfl, -⟩ : state = state' ∧ _ := by simpa using h
    exact hs
  | cons field fields ih =>
    obtain ⟨next, -, h⟩ := bind_ok_iff.mp h
    cases next with
    | close r =>
      obtain ⟨rfl, -⟩ : state = state' ∧ _ := by simpa using h
      exact hs
    | item r =>
      obtain ⟨⟨store, r'⟩, hv, h⟩ := bind_ok_iff.mp h
      exact ih (fun f hf' => hf f (List.mem_cons_of_mem _ hf'))
        (hf field List.mem_cons_self _ _ _ hv state hs) h

/-- What every field keeps true of a record's state is true of it in the end. -/
theorem record_ok {r : Record Reader σ α} {a : α} (h : record r room text = .ok (a, rest)) :
    ∃ n, room = n + 1 ∧ ∀ I : σ → Prop, I r.start →
      (∀ field ∈ r.fields, ∀ text store rest, field.value n text = .ok (store, rest) →
        ∀ state, I state → I (store state)) →
      ∃ missing state, I state ∧ r.finish missing state = .ok a := by
  unfold record at h
  split at h
  · obtain ⟨n, hn, h⟩ := enter_ok h
    obtain ⟨⟨⟨seen, state⟩, r'⟩, hms, h⟩ := bind_ok_iff.mp h
    obtain ⟨b, hb, h⟩ := bind_ok_iff.mp h
    obtain ⟨rfl, -⟩ : b = a ∧ _ := by simpa using h
    refine ⟨n, hn, fun I hs hf => ⟨_, state, ?_, hb⟩⟩
    refine foldMembers_invariant (fun s : List String × σ => I s.2)
      (fun s key text s' rest hs h => ?_) hs hms
    obtain ⟨field, hfield, h⟩ := bind_ok_iff.mp h
    cases field with
    | none =>
      obtain ⟨_, -, h⟩ := bind_ok_iff.mp h
      obtain ⟨_, -, h⟩ := bind_ok_iff.mp h
      obtain ⟨rfl, -⟩ : s = s' ∧ _ := by simpa using h
      exact hs
    | some field =>
      obtain ⟨_, -, h⟩ := bind_ok_iff.mp h
      obtain ⟨⟨store, _⟩, hv, h⟩ := bind_ok_iff.mp h
      obtain ⟨rfl, -⟩ : (key :: s.1, store s.2) = s' ∧ _ := by simpa using h
      exact hf field (Record.mem_of_unseenField? hfield) _ _ _ hv s.2 hs
  · obtain ⟨n, hn, h⟩ := enter_ok h
    obtain ⟨⟨state, r'⟩, hi, h⟩ := bind_ok_iff.mp h
    obtain ⟨b, hb, h⟩ := bind_ok_iff.mp h
    obtain ⟨rfl, -⟩ : b = a ∧ _ := by simpa using h
    exact ⟨n, hn, fun I hs hf => ⟨_, state, storeItems_ok I hf hs hi, hb⟩⟩
  · exact absurd h (wrongType_ne_ok _ _ _)

theorem tag_ok {t : Tagged α} {decode : Decoder α} (h : tag t text = .ok (decode, rest)) :
    ∃ name, (name, decode) ∈ t.variants := by
  unfold tag at h
  split at h
  · obtain ⟨⟨name, r⟩, -, h⟩ := bind_ok_iff.mp h
    obtain ⟨f, hf, h⟩ := bind_ok_iff.mp h
    obtain ⟨rfl, -⟩ : f = decode ∧ _ := by simpa using h
    exact ⟨name, Tagged.mem_of_named hf⟩
  · exact absurd h (wrongType_ne_ok _ _ _)

theorem tagMember_ok {t : Tagged α} {s s' : Option (Decoder α) × List (String × Value)}
    {key : String} (hs : (∀ f ∈ s.1, ∃ name, (name, f) ∈ t.variants) ∧ ∀ m ∈ s.2, m.2.depth ≤ room)
    (h : tagMember t room s key text = .ok (s', rest)) :
    (∀ f ∈ s'.1, ∃ name, (name, f) ∈ t.variants) ∧ ∀ m ∈ s'.2, m.2.depth ≤ room := by
  obtain ⟨hv, hr⟩ := hs
  unfold tagMember at h
  split at h
  · split at h
    · simp at h
    · obtain ⟨_, -, h⟩ := bind_ok_iff.mp h
      obtain ⟨⟨f, _⟩, hf, h⟩ := bind_ok_iff.mp h
      obtain ⟨rfl, -⟩ : (some f, s.2) = s' ∧ _ := by simpa using h
      refine ⟨fun g hg => ?_, hr⟩
      obtain rfl : f = g := Option.some.inj hg
      exact tag_ok hf
  · obtain ⟨⟨collected, _⟩, hm, h⟩ := bind_ok_iff.mp h
    obtain ⟨_, -, hm⟩ := bind_ok_iff.mp hm
    obtain ⟨⟨v, _⟩, hread, hm⟩ := bind_ok_iff.mp hm
    obtain ⟨rfl, -⟩ : (key, v) :: s.2 = collected ∧ _ := by simpa using hm
    obtain ⟨rfl, -⟩ : (s.1, (key, v) :: s.2) = s' ∧ _ := by simpa using h
    refine ⟨hv, fun m hm => ?_⟩
    rcases List.mem_cons.mp hm with rfl | hm
    · exact depth_le_of_readValue hread
    · exact hr m hm

/-- A tagged node is one of the variants, decoded from a value that had room in the text. -/
theorem tagged_ok {t : Tagged α} {a : α} (h : tagged t room text = .ok (a, rest)) :
    ∃ name decode, (name, decode) ∈ t.variants ∧
      ∃ w : Value, w.depth ≤ room ∧ decode w = .ok a := by
  unfold tagged at h
  split at h
  · obtain ⟨n, rfl, h⟩ := enter_ok h
    obtain ⟨⟨⟨variant, collected⟩, _⟩, hms, h⟩ := bind_ok_iff.mp h
    obtain ⟨b, hb, h⟩ := bind_ok_iff.mp h
    obtain ⟨rfl, -⟩ : b = a ∧ _ := by simpa using h
    obtain ⟨hv, hd⟩ := foldMembers_invariant _ (fun _ _ _ _ _ => tagMember_ok)
      (show (∀ f ∈ (none : Option (Decoder α)), ∃ name, (name, f) ∈ t.variants) ∧
        ∀ m ∈ ([] : List (String × Value)), m.2.depth ≤ n by simp) hms
    cases variant with
    | none => simp [Tagged.untagged] at hb
    | some decode =>
      obtain ⟨name, hn⟩ := hv decode rfl
      have hdepth : (Value.object collected.reverse).depth ≤ n + 1 :=
        Nat.succ_le_succ (Value.depthMembers_le fun m hm => hd m (List.mem_reverse.mp hm))
      exact ⟨name, decode, hn, _, hdepth, hb⟩
  · obtain ⟨n, rfl, h⟩ := enter_ok h
    obtain ⟨next, -, h⟩ := bind_ok_iff.mp h
    cases next with
    | close => simp at h
    | item r =>
      obtain ⟨⟨decode, _⟩, htag, h⟩ := bind_ok_iff.mp h
      obtain ⟨⟨items, _⟩, hi, h⟩ := bind_ok_iff.mp h
      obtain ⟨b, hb, h⟩ := bind_ok_iff.mp h
      obtain ⟨rfl, -⟩ : b = a ∧ _ := by simpa using h
      obtain ⟨name, hn⟩ := tag_ok htag
      have hdepth : (Value.array items).depth ≤ n + 1 := by
        refine Nat.succ_le_succ (Value.depthItems_le fun v hv => ?_)
        obtain ⟨_, _, hread⟩ := mem_of_readItems hi v hv
        exact depth_le_of_readValue hread
      exact ⟨name, decode, hn, _, hdepth, hb⟩
  · exact absurd h (wrongType_ne_ok _ _ _)

end Reader

/-- What a whole text gives has been read from its front, with blanks at most after it. -/
theorem readAll_ok_iff {read : Reader α} {text : List Char} {a : α} :
    Reader.readAll read text = .ok a ↔
      ∃ rest, read maxNesting text = .ok (a, rest) ∧ skipBlanks rest = [] := by
  constructor
  · intro h
    obtain ⟨⟨b, rest⟩, hr, hend⟩ := bind_ok_iff.mp h
    simp only at hend
    split at hend
    · obtain rfl : b = a := by simpa using hend
      exact ⟨rest, hr, ‹_›⟩
    · simp at hend
  · rintro ⟨rest, hr, hb⟩
    rw [Reader.readAll, hr, ok_bind]
    exact if_pos hb

end IcuMessage.Json
