/-
The items of a list and the members of an object, as what stands in the text:
the loops that read them succeed exactly where `Items` and `Members` say so,
whatever count they are given, as long as it covers the text
(`Items.readItems_eq`, `Members.foldMembers_eq`). Each relation is given by how one item, or one
value, is read.
-/
import IcuMessage.Json.Read
import IcuMessage.Proofs.Json.StringLiterals

namespace IcuMessage.Json

variable {α β : Type}

/-! ## Lists -/

/-- What the next step in a list finds. -/
inductive ItemAt : Bool → List Char → NextItem → Prop
  | close {isFirst : Bool} {text rest : List Char} (h : skipBlanks text = ']' :: rest) :
      ItemAt isFirst text (.close rest)
  | first {text rest : List Char} {c : Char} (h : skipBlanks text = c :: rest) (hc : c ≠ ']') :
      ItemAt true text (.item (c :: rest))
  | next {text inner rest : List Char} {c : Char} (h : skipBlanks text = ',' :: inner)
      (hi : skipBlanks inner = c :: rest) (hc : c ≠ ']') : ItemAt false text (.item (c :: rest))

theorem nextItem_ok_iff {isFirst : Bool} {text : List Char} {next : NextItem} :
    nextItem isFirst text = .ok next ↔ ItemAt isFirst text next := by
  constructor
  · intro h
    unfold nextItem at h
    split at h
    · simp at h
    · rename_i c rest hs
      split at h
      · rename_i hc
        subst hc
        simp only [Except.ok.injEq] at h
        subst h
        exact .close hs
      rename_i hc
      split at h
      · rename_i hf
        subst hf
        simp only [Except.ok.injEq] at h
        subst h
        exact .first hs hc
      rename_i hf
      split at h
      · rename_i hcomma
        subst hcomma
        split at h
        · simp at h
        · rename_i d inner hi
          split at h
          · simp at h
          · rename_i hd
            simp only [Except.ok.injEq] at h
            subst h
            obtain rfl : isFirst = false := by simpa using hf
            exact .next hs hi hd
      · simp at h
  · intro h
    cases h with
    | close h => simp [nextItem, h]
    | first h hc => simp [nextItem, h, hc]
    | next h hi hc => simp [nextItem, h, hi, hc]

/-- The items of a list from a place in it to its end, each one read by `R`. -/
inductive Items (R : List Char → α → List Char → Prop) :
    Bool → List Char → List α → List Char → Prop
  | close {isFirst : Bool} {text rest : List Char} (h : ItemAt isFirst text (.close rest)) :
      Items R isFirst text [] rest
  | item {isFirst : Bool} {text inner mid rest : List Char} {a : α} {as : List α}
      (h : ItemAt isFirst text (.item inner)) (ha : R inner a mid)
      (has : Items R false mid as rest) : Items R isFirst text (a :: as) rest

/-- What a reader does where it succeeds. -/
def Reads (read : List Char → Except Error (α × List Char)) (text : List Char) (a : α)
    (rest : List Char) : Prop :=
  read text = .ok (a, rest)

theorem items_of_readItems {readItem : List Char → Except Error (α × List Char)} {count : Nat}
    {isFirst : Bool} {text rest : List Char} {as : List α}
    (h : readItems readItem count isFirst text = .ok (as, rest)) :
    Items (Reads readItem) isFirst text as rest := by
  induction count generalizing isFirst text as with
  | zero => simp [readItems] at h
  | succ count ih =>
    obtain ⟨next, hn, h⟩ := bind_ok_iff.mp h
    rw [nextItem_ok_iff] at hn
    cases next with
    | close r =>
      simp only [Except.ok.injEq, Prod.mk.injEq] at h
      obtain ⟨rfl, rfl⟩ := h
      exact .close hn
    | item inner =>
      obtain ⟨⟨a, mid⟩, ha, h⟩ := bind_ok_iff.mp h
      obtain ⟨⟨as', r⟩, has, h⟩ := bind_ok_iff.mp h
      simp only [Except.ok.injEq, Prod.mk.injEq] at h
      obtain ⟨rfl, rfl⟩ := h
      exact .item hn ha (ih has)

theorem ItemAt.length_close {isFirst : Bool} {text rest : List Char}
    (h : ItemAt isFirst text (.close rest)) : rest.length < text.length := by
  cases h with
  | close h => exact length_lt_of_skipBlanks h

theorem ItemAt.length_item {isFirst : Bool} {text inner : List Char}
    (h : ItemAt isFirst text (.item inner)) : inner.length ≤ text.length := by
  cases h with
  | first h hc =>
    have := length_lt_of_skipBlanks h
    simp only [List.length_cons]
    omega
  | next h hi hc =>
    have := length_lt_of_skipBlanks h
    have := length_lt_of_skipBlanks hi
    simp only [List.length_cons]
    omega

/-- Every successful step leaves less text. -/
def Progress (R : List Char → α → List Char → Prop) : Prop :=
  ∀ text a rest, R text a rest → rest.length < text.length

theorem Items.length_lt {R : List Char → α → List Char → Prop} (hR : Progress R) {isFirst : Bool}
    {text rest : List Char} {as : List α} (h : Items R isFirst text as rest) :
    rest.length < text.length := by
  induction h with
  | close h => exact h.length_close
  | item h ha _ ih =>
    have := h.length_item
    have := hR _ _ _ ha
    omega

/-- Where every item of a list comes out as `f` says, so does the list. -/
theorem Items.readItems_eq {R : List Char → α → List Char → Prop} {isFirst : Bool}
    {text rest : List Char} {as : List α} (h : Items R isFirst text as rest) (hR : Progress R)
    (f : α → Except Error β) {readItem : List Char → Except Error (β × List Char)}
    (hread : ∀ text a rest, R text a rest → readItem text = (f a).map (·, rest))
    {count : Nat} (hc : text.length ≤ count) :
    readItems readItem count isFirst text = (as.mapM f).map (·, rest) := by
  induction h generalizing count with
  | close h =>
    have := h.length_close
    obtain ⟨count, rfl⟩ : ∃ n, count = n + 1 := ⟨count - 1, by omega⟩
    simp [readItems, nextItem_ok_iff.mpr h]
    rfl
  | @item isFirst text inner mid rest a as h ha _ ih =>
    have := h.length_item
    have := hR _ _ _ ha
    obtain ⟨count, rfl⟩ : ∃ n, count = n + 1 := ⟨count - 1, by omega⟩
    have hle : mid.length ≤ count := by omega
    rw [readItems, nextItem_ok_iff.mpr h]
    simp only [ok_bind, hread _ _ _ ha, List.mapM_cons]
    cases f a with
    | error e => rfl
    | ok b =>
      simp only [map_ok, ok_bind, ih hle]
      cases as.mapM f <;> rfl

theorem mapM_ok {ε : Type} (as : List α) : as.mapM (.ok : α → Except ε α) = .ok as := by
  induction as with
  | nil => rfl
  | cons a as ih => rw [List.mapM_cons, ih]; rfl

theorem Items.readItems_ok {readItem : List Char → Except Error (α × List Char)}
    {isFirst : Bool} {text rest : List Char} {as : List α}
    (h : Items (Reads readItem) isFirst text as rest) (hR : Progress (Reads readItem)) {count : Nat}
    (hc : text.length ≤ count) : readItems readItem count isFirst text = .ok (as, rest) := by
  rw [h.readItems_eq hR .ok (fun _ _ _ ha => ha) hc, mapM_ok, map_ok]

theorem ItemAt.append_close {isFirst : Bool} {text rest : List Char}
    (h : ItemAt isFirst text (.close rest)) (more : List Char) :
    ItemAt isFirst (text ++ more) (.close (rest ++ more)) := by
  cases h with
  | close h => exact .close (skipBlanks_append h more)

theorem ItemAt.append_item {isFirst : Bool} {text inner : List Char}
    (h : ItemAt isFirst text (.item inner)) (more : List Char) :
    ItemAt isFirst (text ++ more) (.item (inner ++ more)) := by
  cases h with
  | first h hc => exact .first (skipBlanks_append h more) hc
  | next h hi hc => exact .next (skipBlanks_append h more) (skipBlanks_append hi more) hc

theorem Items.ne_nil {R : List Char → α → List Char → Prop} {isFirst : Bool}
    {text rest : List Char} {as : List α} (h : Items R isFirst text as rest) : text ≠ [] := by
  rintro rfl
  cases h with
  | close h => exact absurd h.length_close (by simp)
  | item h =>
    cases h with
    | first h | next h => simp [skipBlanks] at h

theorem Items.append {R : List Char → α → List Char → Prop} {more : List Char}
    (hR : ∀ text a rest, R text a rest → rest ≠ [] → R (text ++ more) a (rest ++ more))
    {isFirst : Bool} {text rest : List Char} {as : List α} (h : Items R isFirst text as rest) :
    Items R isFirst (text ++ more) as (rest ++ more) := by
  induction h with
  | close h => exact .close (h.append_close more)
  | item h ha has ih => exact .item (h.append_item more) (hR _ _ _ ha has.ne_nil) ih

/-! ## Objects -/

/-- What the next step in an object finds. -/
inductive MemberAt : Bool → List Char → NextMember → Prop
  | close {isFirst : Bool} {text rest : List Char} (h : skipBlanks text = '}' :: rest) :
      MemberAt isFirst text (.close rest)
  | first {text inner rest : List Char} {key : String} (h : skipBlanks text = '"' :: inner)
      (hk : StringLiteral.read inner = .ok (key, rest)) : MemberAt true text (.member key rest)
  | next {text mid inner rest : List Char} {key : String} (h : skipBlanks text = ',' :: mid)
      (hm : skipBlanks mid = '"' :: inner) (hk : StringLiteral.read inner = .ok (key, rest)) :
      MemberAt false text (.member key rest)

theorem readKey_ok {text : List Char} {next : NextMember} (h : readKey text = .ok next) :
    ∃ inner key rest, text = '"' :: inner ∧ StringLiteral.read inner = .ok (key, rest) ∧
      next = .member key rest := by
  cases text with
  | nil => simp [readKey] at h
  | cons c inner =>
    simp only [readKey] at h
    split at h
    · rename_i hc
      obtain ⟨⟨key, rest⟩, hk, h⟩ := bind_ok_iff.mp h
      simp only [Except.ok.injEq] at h
      exact ⟨inner, key, rest, by rw [hc], hk, h.symm⟩
    · simp at h

theorem nextMember_ok_iff {isFirst : Bool} {text : List Char} {next : NextMember} :
    nextMember isFirst text = .ok next ↔ MemberAt isFirst text next := by
  constructor
  · intro h
    unfold nextMember at h
    split at h
    · simp at h
    · rename_i c rest hs
      split at h
      · rename_i hc
        subst hc
        simp only [Except.ok.injEq] at h
        subst h
        exact .close hs
      split at h
      · rename_i hf
        subst hf
        obtain ⟨inner, key, rest', hq, hk, rfl⟩ := readKey_ok h
        exact .first (hs.trans hq) hk
      rename_i hf
      obtain rfl : isFirst = false := by simpa using hf
      split at h
      · rename_i hcomma
        subst hcomma
        split at h
        · simp at h
        · rename_i d mid hm
          split at h
          · simp at h
          · obtain ⟨inner, key, rest', hq, hk, rfl⟩ := readKey_ok h
            exact .next hs (hm.trans hq) hk
      · simp at h
  · intro h
    cases h with
    | close h => simp [nextMember, h]
    | first h hk => simp [nextMember, h, readKey, hk]
    | next h hm hk => simp [nextMember, h, hm, readKey, hk]

theorem expectColon_ok_iff {text rest : List Char} :
    expectColon text = .ok rest ↔ skipBlanks text = ':' :: rest := by
  unfold expectColon
  split
  · rename_i h
    simp [h]
  · rename_i c inner h
    by_cases hc : c = ':'
    · simp [hc, h]
    · simp [hc, h]

/-- The members of an object from a place in it to its end, each value read by `R`. -/
inductive Members (R : List Char → α → List Char → Prop) :
    Bool → List Char → List (String × α) → List Char → Prop
  | close {isFirst : Bool} {text rest : List Char} (h : MemberAt isFirst text (.close rest)) :
      Members R isFirst text [] rest
  | member {isFirst : Bool} {text colon inner mid rest : List Char} {key : String} {a : α}
      {ms : List (String × α)} (h : MemberAt isFirst text (.member key colon))
      (hc : skipBlanks colon = ':' :: inner) (ha : R inner a mid)
      (hms : Members R false mid ms rest) : Members R isFirst text ((key, a) :: ms) rest

theorem MemberAt.length_close {isFirst : Bool} {text rest : List Char}
    (h : MemberAt isFirst text (.close rest)) : rest.length < text.length := by
  cases h with
  | close h => exact length_lt_of_skipBlanks h

theorem MemberAt.length_member {isFirst : Bool} {text rest : List Char} {key : String}
    (h : MemberAt isFirst text (.member key rest)) : rest.length < text.length := by
  cases h with
  | first h hk =>
    have := length_lt_of_skipBlanks h
    have := StringLiteral.length_of_read hk
    omega
  | next h hm hk =>
    have := length_lt_of_skipBlanks h
    have := length_lt_of_skipBlanks hm
    have := StringLiteral.length_of_read hk
    omega

theorem Members.length_lt {R : List Char → α → List Char → Prop} (hR : Progress R)
    {isFirst : Bool} {text rest : List Char} {ms : List (String × α)}
    (h : Members R isFirst text ms rest) : rest.length < text.length := by
  induction h with
  | close h => exact h.length_close
  | member h hc ha _ ih =>
    have := h.length_member
    have := length_lt_of_skipBlanks hc
    have := hR _ _ _ ha
    omega

/-- Where every member of an object does to the state what `step` says, so does the object. -/
theorem Members.foldMembers_eq {σ : Type} {R : List Char → α → List Char → Prop}
    {isFirst : Bool} {text rest : List Char} {ms : List (String × α)}
    (h : Members R isFirst text ms rest) (hR : Progress R)
    (step : σ → String × α → Except Error σ)
    {readMember : σ → String → List Char → Except Error (σ × List Char)}
    (hread : ∀ state key colon inner a rest, skipBlanks colon = ':' :: inner → R inner a rest →
      readMember state key colon = (step state (key, a)).map (·, rest))
    {count : Nat} (hc : text.length ≤ count) (state : σ) :
    foldMembers readMember count isFirst text state = (ms.foldlM step state).map (·, rest) := by
  induction h generalizing count state with
  | close h =>
    have := h.length_close
    obtain ⟨count, rfl⟩ : ∃ n, count = n + 1 := ⟨count - 1, by omega⟩
    simp [foldMembers, nextMember_ok_iff.mpr h]
    rfl
  | @member isFirst text colon inner mid rest key a ms h hcolon ha _ ih =>
    have := h.length_member
    have := length_lt_of_skipBlanks hcolon
    have := hR _ _ _ ha
    obtain ⟨count, rfl⟩ : ∃ n, count = n + 1 := ⟨count - 1, by omega⟩
    have hle : mid.length ≤ count := by omega
    rw [foldMembers, nextMember_ok_iff.mpr h]
    simp only [ok_bind, hread _ _ _ _ _ _ hcolon ha, List.foldlM_cons]
    cases step state (key, a) with
    | error e => rfl
    | ok s => simp only [map_ok, ok_bind, ih hle]

theorem MemberAt.append_close {isFirst : Bool} {text rest : List Char}
    (h : MemberAt isFirst text (.close rest)) (more : List Char) :
    MemberAt isFirst (text ++ more) (.close (rest ++ more)) := by
  cases h with
  | close h => exact .close (skipBlanks_append h more)

theorem MemberAt.append_member {isFirst : Bool} {text rest : List Char} {key : String}
    (h : MemberAt isFirst text (.member key rest)) (more : List Char) :
    MemberAt isFirst (text ++ more) (.member key (rest ++ more)) := by
  cases h with
  | first h hk => exact .first (skipBlanks_append h more) (StringLiteral.read_append hk more)
  | next h hm hk =>
    exact .next (skipBlanks_append h more) (skipBlanks_append hm more)
      (StringLiteral.read_append hk more)

theorem Members.ne_nil {R : List Char → α → List Char → Prop} {isFirst : Bool}
    {text rest : List Char} {ms : List (String × α)} (h : Members R isFirst text ms rest) :
    text ≠ [] := by
  rintro rfl
  cases h with
  | close h => exact absurd h.length_close (by simp)
  | member h => exact absurd h.length_member (by simp)

theorem Members.append {R : List Char → α → List Char → Prop} {more : List Char}
    (hR : ∀ text a rest, R text a rest → rest ≠ [] → R (text ++ more) a (rest ++ more))
    {isFirst : Bool} {text rest : List Char} {ms : List (String × α)}
    (h : Members R isFirst text ms rest) : Members R isFirst (text ++ more) ms (rest ++ more) := by
  induction h with
  | close h => exact .close (h.append_close more)
  | member h hc ha hms ih =>
    exact .member (h.append_member more) (skipBlanks_append hc more) (hR _ _ _ ha hms.ne_nil) ih

theorem foldlM_collect (ms acc : List (String × α)) :
    ms.foldlM (fun acc m => (.ok (m :: acc) : Except Error _)) acc = .ok (ms.reverse ++ acc) := by
  induction ms generalizing acc with
  | nil => rfl
  | cons m ms ih => simp [List.foldlM_cons, ih]

theorem Members.foldMembers_ok {readValue : List Char → Except Error (Value × List Char)}
    {isFirst : Bool} {text rest : List Char} {ms : List (String × Value)}
    (h : Members (Reads readValue) isFirst text ms rest) (hR : Progress (Reads readValue))
    {count : Nat} (hc : text.length ≤ count) :
    foldMembers (collectMember readValue) count isFirst text [] = .ok (ms.reverse, rest) := by
  rw [h.foldMembers_eq hR (fun acc m => .ok (m :: acc))
    (fun state key colon inner a rest hc ha => ?_) hc, foldlM_collect]
  · simp
  · have ha : readValue inner = .ok (a, rest) := ha
    rw [collectMember, expectColon_ok_iff.mpr hc, ok_bind, ha]
    rfl

/-- What reading the members of an object as a whole says. -/
theorem members_of_foldMembers {readValue : List Char → Except Error (Value × List Char)}
    {count : Nat} {isFirst : Bool} {text rest : List Char} {ms ms' : List (String × Value)}
    (h : foldMembers (collectMember readValue) count isFirst text ms = .ok (ms', rest)) :
    ∃ read, Members (Reads readValue) isFirst text read rest ∧ ms' = read.reverse ++ ms := by
  induction count generalizing isFirst text ms with
  | zero => simp [foldMembers] at h
  | succ count ih =>
    obtain ⟨next, hn, h⟩ := bind_ok_iff.mp h
    rw [nextMember_ok_iff] at hn
    cases next with
    | close r =>
      simp only [Except.ok.injEq, Prod.mk.injEq] at h
      obtain ⟨rfl, rfl⟩ := h
      exact ⟨[], .close hn, rfl⟩
    | member key colon =>
      obtain ⟨⟨state, mid⟩, hm, h⟩ := bind_ok_iff.mp h
      obtain ⟨inner, hc, hm⟩ := bind_ok_iff.mp hm
      obtain ⟨⟨v, mid'⟩, hv, hm⟩ := bind_ok_iff.mp hm
      simp only [Except.ok.injEq, Prod.mk.injEq] at hm
      obtain ⟨rfl, rfl⟩ := hm
      obtain ⟨read, hr, rfl⟩ := ih h
      exact ⟨(key, v) :: read, .member hn (expectColon_ok_iff.mp hc) hv hr, by simp⟩

end IcuMessage.Json
