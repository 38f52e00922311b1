/-
Texts of values with blots: items of lists from which no value is read, such as
numbers out of range. Whatever would be passed over as a value is the text of
one or such a blot (`text_or_unreadable`). A text with a blot in it is
unreadable itself (`Value.Blotted.text_or_unreadable`), since everything in a
list or an object is read before there is a value of it.
-/
import IcuMessage.Proofs.Json.RecordPieces
import IcuMessage.Proofs.Json.Texts

namespace IcuMessage.Json

variable {α : Type}

/-- Wherever the text stands, the reader gets nothing from it. -/
def Refuses (read : List Char → Except Error (α × List Char)) (text : List Char) : Prop :=
  ∀ rest, EndsNumber rest → ∀ x, read (text ++ rest) ≠ .ok x

/-- Something stands there, and it is not the end of a list. -/
def Begins (text : List Char) : Prop :=
  ∃ c inner, skipBlanks text = c :: inner ∧ c ≠ ']'

/-- Something stands there, but wherever it does, no value is read from it. -/
def Unreadable (text : List Char) : Prop :=
  Begins text ∧ ∀ room, Refuses (readValue room) text

theorem Value.Text.begins {v : Value} {text : List Char} (h : v.Text text) : Begins text := by
  obtain ⟨mid, hv, -⟩ := h.spells (Nat.le_refl _) [] .nil
  rw [List.append_nil] at hv
  obtain ⟨c, inner, hs, hc, -⟩ := head_of_readValue hv
  exact ⟨c, inner, hs, hc⟩

theorem Value.Text.not_unreadable {v : Value} {text : List Char} (h : v.Text text) :
    ¬Unreadable text := by
  intro hu
  obtain ⟨mid, hv, -⟩ := h.spells (Nat.le_refl _) [] .nil
  exact hu.2 _ [] .nil _ hv

/-- Within any room the value is read from its text, or refused for its nesting. -/
theorem Value.Text.holds_or_refuses {v : Value} {text : List Char} (h : v.Text text) (room : Nat) :
    (∃ w, Holds (readValue room) text w) ∨ Refuses (readValue room) text := by
  by_cases hd : v.depth ≤ room
  · exact .inl ⟨v, h.spells hd⟩
  · refine .inr fun rest hr x hx => ?_
    obtain ⟨mid, hv, -⟩ := h.spells (Nat.le_refl _) rest hr
    rw [readValue_eq_within hv, Value.within, if_neg hd] at hx
    simp at hx

theorem Begins.append {text : List Char} (h : Begins text) (rest : List Char) :
    Begins (text ++ rest) := by
  obtain ⟨c, inner, hs, hc⟩ := h
  exact ⟨c, inner ++ rest, skipBlanks_append hs rest, hc⟩

theorem begins_of_skipValue {text rest : List Char} (h : skipValue text = .ok rest) :
    Begins text := by
  rw [skipValue] at h
  generalize text.length = count at h
  cases count with
  | zero => simp [skipWithin] at h
  | succ count =>
    cases hs : skipBlanks text with
    | nil => simp [skipWithin, hs] at h
    | cons c inner =>
      refine ⟨c, inner, hs, ?_⟩
      rintro rfl
      simp [skipWithin, hs, skipScalar] at h

/-- What would be passed over as a value is the text of one, or there is no value of it. -/
theorem text_or_unreadable {text : List Char} (h : skipValue text = .ok []) :
    (∃ v : Value, v.Text text) ∨ Unreadable text := by
  by_cases hv : ∃ v : Value, v.Text text
  · exact .inl hv
  · refine .inr ⟨begins_of_skipValue h, ?_⟩
    rintro room rest hends ⟨v, last⟩ hread
    obtain ⟨piece, hpiece, -, hskip⟩ := skipValue_piece h
    rw [List.append_nil] at hpiece
    subst hpiece
    obtain rfl : last = rest := Except.ok.inj ((skipValue_of_readValue hread).symm.trans
      (hskip rest hends))
    obtain ⟨piece, heq, htext⟩ := text_of_readValue hread
    exact hv ⟨v, List.append_cancel_right heq ▸ htext⟩

/-- A scalar that is refused, such as a number out of range, is unreadable. -/
theorem unreadable_scalar {text inner : List Char} {c : Char} (h : skipValue text = .ok [])
    (hb : skipBlanks text = c :: inner) (hc : c ≠ '[' ∧ c ≠ '{')
    (hr : ∀ x, readScalar (c :: inner) ≠ .ok x) : Unreadable text := by
  refine (text_or_unreadable h).resolve_left ?_
  rintro ⟨v, hv⟩
  obtain ⟨room, rest, hread, -⟩ := Value.text_iff_readValue.mp hv
  cases valueAt_of_readValue hread with
  | array hb' => exact hc.1 (List.cons.inj (hb.symm.trans hb')).1
  | object hb' => exact hc.2 (List.cons.inj (hb.symm.trans hb')).1
  | scalar hb' hs =>
    obtain ⟨rfl, rfl⟩ := List.cons.inj (hb.symm.trans hb')
    exact hr _ (readScalar_ok_iff.mpr hs)

/-! ## Lists -/

theorem ItemAt.inner_eq (isFirst : Bool) {mid inner next : List Char}
    (h : ItemAt isFirst mid (.item inner))
    (hm : skipBlanks mid = if isFirst then skipBlanks next else ',' :: next) :
    inner = skipBlanks next := by
  cases h with
  | first hs _ => exact hs.symm.trans hm
  | next hs hi _ =>
    obtain ⟨-, rfl⟩ := List.cons.inj (hs.symm.trans hm)
    exact hi.symm

theorem Begins.not_close (isFirst : Bool) {mid next rest : List Char} (h : Begins next)
    (hm : skipBlanks mid = if isFirst then skipBlanks next else ',' :: next) :
    ¬ItemAt isFirst mid (.close rest) := by
  rintro ⟨hs⟩
  obtain ⟨c, inner, hc, hne⟩ := h
  cases isFirst with
  | true => exact hne (List.cons.inj (hc.symm.trans (hm.symm.trans hs))).1
  | false => exact absurd (List.cons.inj (hm.symm.trans hs)).1 (by decide)

theorem items_of_readValue {room : Nat} {text inner rest : List Char} {v : Value}
    (hb : skipBlanks text = '[' :: inner) (h : readValue room text = .ok (v, rest)) :
    ∃ n, room = n + 1 ∧ ∃ items, Items (Reads (readValue n)) true inner items rest := by
  cases valueAt_of_readValue h with
  | array hb' hi =>
    obtain ⟨-, rfl⟩ := List.cons.inj (hb.symm.trans hb')
    exact ⟨_, rfl, _, hi⟩
  | object hb' _ => exact absurd (List.cons.inj (hb.symm.trans hb')).1 (by decide)
  | scalar hb' hs =>
    obtain ⟨c, inner', heq, hc, -⟩ := hs.head
    exact absurd (List.cons.inj (hb.symm.trans (hb'.trans heq))).1 hc.symm

/-- Where a list is read, so is the text of its first item. -/
theorem Items.of_text (isFirst : Bool) {read : List Char → Except Error (α × List Char)}
    (hread : ∀ text, read (skipBlanks text) = read text) {text more : List Char}
    (hb : Begins text) (hs : (∃ a, Holds read text a) ∨ Refuses read text)
    (hends : EndsNumber more) {mid last : List Char}
    (hm : skipBlanks mid = if isFirst then skipBlanks (text ++ more) else ',' :: (text ++ more))
    {as : List α} (h : Items (Reads read) isFirst mid as last) :
    ¬Refuses read text ∧
      ∃ next as', skipBlanks next = skipBlanks more ∧ Items (Reads read) false next as' last := by
  cases h with
  | close h => exact absurd h ((hb.append more).not_close isFirst hm)
  | @item _ _ inner next _ a as h ha has =>
    have ha : read (text ++ more) = .ok (a, next) := by
      rw [← hread, ← h.inner_eq isFirst hm]
      exact ha
    refine ⟨fun hr => hr more hends _ ha, ?_⟩
    rcases hs with ⟨b, hs⟩ | hs
    · obtain ⟨next', hb, hn⟩ := hs more hends
      obtain ⟨-, rfl⟩ := Prod.mk.inj (Except.ok.inj (ha.symm.trans hb))
      exact ⟨next, as, hn, has⟩
    · exact absurd ha (hs more hends _)

/-- No list is read past an item that is refused. -/
theorem not_items {read : List Char → Except Error (α × List Char)}
    (hread : ∀ text, read (skipBlanks text) = read text) {texts : List (List Char)}
    (hs : ∀ t ∈ texts, Begins t ∧ ((∃ a, Holds read t a) ∨ Refuses read t))
    (hf : ∃ t ∈ texts, Refuses read t) {mid rest last : List Char}
    (hm : skipBlanks mid = commaBefore texts ++ ']' :: rest) (as : List α) :
    ¬Items (Reads read) false mid as last := by
  intro hi
  induction texts generalizing mid as with
  | nil => simp at hf
  | cons text texts ih =>
    obtain ⟨⟨hb, htext⟩, hs⟩ := List.forall_mem_cons.mp hs
    have hends := endsNumber_commaBefore texts (.inl rfl) rest
    obtain ⟨hne, next, as', hn, hi⟩ := Items.of_text false hread hb htext hends
      (by simpa [commaBefore] using hm) hi
    obtain ⟨t, ht, hf⟩ := hf
    rcases List.mem_cons.mp ht with rfl | ht
    · exact hne hf
    · exact ih hs ⟨t, ht, hf⟩ (hn.trans (skipBlanks_commaBefore texts (.inl rfl) rest)) as' hi

theorem unreadable_array {blanks : List Char} (hb : Blank blanks) {texts : List (List Char)}
    (hs : ∀ t ∈ texts, (∃ v : Value, v.Text t) ∨ Unreadable t) (hf : ∃ t ∈ texts, Unreadable t) :
    Unreadable ('[' :: blanks ++ commaSeparated texts ++ [']']) := by
  refine ⟨⟨'[', _, skipBlanks_cons_of_not (by decide) _, by decide⟩, ?_⟩
  rintro room rest - ⟨v, last⟩ hv
  have htext : '[' :: blanks ++ commaSeparated texts ++ [']'] ++ rest =
      '[' :: (blanks ++ (commaSeparated texts ++ ']' :: rest)) := by simp
  rw [htext] at hv
  obtain ⟨n, rfl, items, hi⟩ := items_of_readValue (skipBlanks_cons_of_not (by decide) _) hv
  have hread : ∀ t ∈ texts,
      Begins t ∧ ((∃ a, Holds (readValue n) t a) ∨ Refuses (readValue n) t) := by
    intro t ht
    rcases hs t ht with ⟨v, hv⟩ | h
    · exact ⟨hv.begins, hv.holds_or_refuses n⟩
    · exact ⟨h.1, .inr (h.2 n)⟩
  obtain ⟨t, ht, hf⟩ := hf
  cases texts with
  | nil => simp at ht
  | cons text texts =>
    obtain ⟨⟨hbegins, htext⟩, hrest⟩ := List.forall_mem_cons.mp hread
    have hends := endsNumber_commaBefore texts (.inl rfl) rest
    have hm := skipBlanks_append_of_nil hb.skip (commaSeparated (text :: texts) ++ ']' :: rest)
    rw [commaSeparated_cons, List.append_assoc] at hi hm
    obtain ⟨hne, next, items', hn, hi⟩ :=
      Items.of_text true (readValue_skipBlanks n) hbegins htext hends hm hi
    rcases List.mem_cons.mp ht with rfl | ht
    · exact hne (hf.2 n)
    · exact not_items (readValue_skipBlanks n) hrest ⟨t, ht, hf.2 n⟩
        (hn.trans (skipBlanks_commaBefore texts (.inl rfl) rest)) items' hi

/-! ## Objects -/

theorem members_of_readValue {room : Nat} {text inner rest : List Char} {v : Value}
    (hb : skipBlanks text = '{' :: inner) (h : readValue room text = .ok (v, rest)) :
    ∃ n, room = n + 1 ∧ ∃ ms, Members (Reads (readValue n)) true inner ms rest := by
  cases valueAt_of_readValue h with
  | array hb' _ => exact absurd (List.cons.inj (hb.symm.trans hb')).1 (by decide)
  | object hb' hm =>
    obtain ⟨-, rfl⟩ := List.cons.inj (hb.symm.trans hb')
    exact ⟨_, rfl, _, hm⟩
  | scalar hb' hs =>
    obtain ⟨c, inner', heq, -, hc, -⟩ := hs.head
    exact absurd (List.cons.inj (hb.symm.trans (hb'.trans heq))).1 hc.symm

/-- After the key of a member stands its colon. -/
theorem MemberAt.of_text (isFirst : Bool) {mid text value more : List Char} {key : String}
    {found : NextMember} (hk : IsMember text key value)
    (hm : skipBlanks mid = if isFirst then skipBlanks (text ++ more) else ',' :: (text ++ more))
    (h : MemberAt isFirst mid found) :
    ∃ colon, found = .member key colon ∧ skipBlanks colon = ':' :: (value ++ more) := by
  obtain ⟨inner, colon, hq, hkey, hc⟩ := hk.read_key more
  refine ⟨colon, ?_, hc⟩
  cases h with
  | close hs =>
    cases isFirst with
    | true => exact absurd (List.cons.inj (hs.symm.trans (hm.trans hq))).1 (by decide)
    | false => exact absurd (List.cons.inj (hs.symm.trans hm)).1 (by decide)
  | first hs hread =>
    obtain ⟨-, rfl⟩ := List.cons.inj (hs.symm.trans (hm.trans hq))
    obtain ⟨rfl, rfl⟩ := Prod.mk.inj (Except.ok.inj (hread.symm.trans hkey))
    rfl
  | next hs hi hread =>
    obtain ⟨-, rfl⟩ := List.cons.inj (hs.symm.trans hm)
    obtain ⟨-, rfl⟩ := List.cons.inj (hi.symm.trans hq)
    obtain ⟨rfl, rfl⟩ := Prod.mk.inj (Except.ok.inj (hread.symm.trans hkey))
    rfl

/-- Where an object is read, so is the text of its first member. -/
theorem Members.of_text (isFirst : Bool) {read : List Char → Except Error (α × List Char)}
    {key : String} {text value more : List Char} (hk : IsMember text key value)
    (hs : (∃ a, Holds read value a) ∨ Refuses read value) (hends : EndsNumber more)
    {mid last : List Char}
    (hm : skipBlanks mid = if isFirst then skipBlanks (text ++ more) else ',' :: (text ++ more))
    {ms : List (String × α)} (h : Members (Reads read) isFirst mid ms last) :
    ¬Refuses read value ∧
      ∃ next ms', skipBlanks next = skipBlanks more ∧ Members (Reads read) false next ms' last := by
  cases h with
  | close h =>
    obtain ⟨colon, hfound, -⟩ := h.of_text isFirst hk hm
    nomatch hfound
  | @member _ _ colon inner next _ _ a ms h hc ha hms =>
    obtain ⟨colon', hfound, hc'⟩ := h.of_text isFirst hk hm
    obtain ⟨rfl, rfl⟩ := NextMember.member.inj hfound
    obtain ⟨-, rfl⟩ := List.cons.inj (hc.symm.trans hc')
    refine ⟨fun hr => hr more hends _ ha, ?_⟩
    rcases hs with ⟨b, hs⟩ | hs
    · obtain ⟨next', hb, hn⟩ := hs more hends
      obtain ⟨-, rfl⟩ := Prod.mk.inj (Except.ok.inj (Eq.trans (Eq.symm ha) hb))
      exact ⟨next, ms, hn, hms⟩
    · exact absurd ha (hs more hends _)

theorem not_members {read : List Char → Except Error (α × List Char)}
    {texts values : List (List Char)}
    (hk : List.Forall₂ (fun text value => ∃ key, IsMember text key value) texts values)
    (hs : ∀ t ∈ values, (∃ a, Holds read t a) ∨ Refuses read t)
    (hf : ∃ t ∈ values, Refuses read t) {mid rest last : List Char}
    (hm : skipBlanks mid = commaBefore texts ++ '}' :: rest) (ms : List (String × α)) :
    ¬Members (Reads read) false mid ms last := by
  intro h
  induction hk generalizing mid ms with
  | nil => simp at hf
  | @cons text value texts values hk _ ih =>
    obtain ⟨key, hk⟩ := hk
    obtain ⟨hvalue, hs⟩ := List.forall_mem_cons.mp hs
    have hends := endsNumber_commaBefore texts (.inr rfl) rest
    obtain ⟨hne, next, ms', hn, h⟩ := Members.of_text false hk hvalue hends
      (by simpa [commaBefore] using hm) h
    obtain ⟨t, ht, hf⟩ := hf
    rcases List.mem_cons.mp ht with rfl | ht
    · exact hne hf
    · exact ih hs ⟨t, ht, hf⟩ (hn.trans (skipBlanks_commaBefore texts (.inr rfl) rest)) ms' h

theorem unreadable_object {blanks : List Char} (hb : Blank blanks) {texts values : List (List Char)}
    (hk : List.Forall₂ (fun text value => ∃ key, IsMember text key value) texts values)
    (hs : ∀ t ∈ values, (∃ v : Value, v.Text t) ∨ Unreadable t) (hf : ∃ t ∈ values, Unreadable t) :
    Unreadable ('{' :: blanks ++ commaSeparated texts ++ ['}']) := by
  refine ⟨⟨'{', _, skipBlanks_cons_of_not (by decide) _, by decide⟩, ?_⟩
  rintro room rest - ⟨v, last⟩ hv
  have htext : '{' :: blanks ++ commaSeparated texts ++ ['}'] ++ rest =
      '{' :: (blanks ++ (commaSeparated texts ++ '}' :: rest)) := by simp
  rw [htext] at hv
  obtain ⟨n, rfl, ms, h⟩ := members_of_readValue (skipBlanks_cons_of_not (by decide) _) hv
  have hread : ∀ t ∈ values, (∃ a, Holds (readValue n) t a) ∨ Refuses (readValue n) t := by
    intro t ht
    rcases hs t ht with ⟨v, hv⟩ | h
    · exact hv.holds_or_refuses n
    · exact .inr (h.2 n)
  obtain ⟨t, ht, hf⟩ := hf
  cases hk with
  | nil => simp at ht
  | @cons text value texts values hk hks =>
    obtain ⟨key, hk⟩ := hk
    obtain ⟨hvalue, hrest⟩ := List.forall_mem_cons.mp hread
    have hends := endsNumber_commaBefore texts (.inr rfl) rest
    have hm := skipBlanks_append_of_nil hb.skip (commaSeparated (text :: texts) ++ '}' :: rest)
    rw [commaSeparated_cons, List.append_assoc] at h hm
    obtain ⟨hne, next, ms', hn, h⟩ := Members.of_text true hk hvalue hends hm h
    rcases List.mem_cons.mp ht with rfl | ht
    · exact hne (hf.2 n)
    · exact not_members hks hrest ⟨t, ht, hf.2 n⟩
        (hn.trans (skipBlanks_commaBefore texts (.inr rfl) rest)) ms' h

/-! ## Blanks -/

theorem skipBlanks_between {before : List Char} (hb : Blank before) (text after rest : List Char) :
    skipBlanks (before ++ text ++ after ++ rest) = skipBlanks (text ++ (after ++ rest)) := by
  rw [List.append_assoc, List.append_assoc, skipBlanks_append_of_nil hb.skip]

theorem Refuses.between {read : List Char → Except Error (α × List Char)}
    (hread : ∀ text, read (skipBlanks text) = read text) {before text after : List Char}
    (h : Refuses read text) (hb : Blank before) (ha : Blank after) :
    Refuses read (before ++ text ++ after) := by
  intro rest hends x hx
  rw [← hread, skipBlanks_between hb, hread] at hx
  exact h _ (ha.endsNumber hends) x hx

theorem Unreadable.between {before text after : List Char} (h : Unreadable text)
    (hb : Blank before) (ha : Blank after) : Unreadable (before ++ text ++ after) := by
  obtain ⟨⟨c, inner, hs, hc⟩, hr⟩ := h
  refine ⟨⟨c, inner ++ after, ?_, hc⟩, fun room => ?_⟩
  · have hskip := skipBlanks_between hb text after []
    rw [List.append_nil, List.append_nil] at hskip
    exact hskip.trans (skipBlanks_append hs after)
  · exact (hr room).between (readValue_skipBlanks room) hb ha

/-! ## Texts with blots -/

mutual

/-- The text stands for the value, but for items of lists that can not be read: those stand for
anything. -/
inductive Value.Blotted : Value → List Char → Prop
  | text {v : Value} {text : List Char} (h : v.Text text) : Value.Blotted v text
  | array {items : List Value} {blanks : List Char} {texts : List (List Char)} (hb : Blank blanks)
      (h : Value.BlottedItems items texts) :
      Value.Blotted (.array items) ('[' :: blanks ++ commaSeparated texts ++ [']'])
  | object {ms : List (String × Value)} {blanks : List Char} {texts : List (List Char)}
      (hb : Blank blanks) (h : Value.BlottedMembers ms texts) :
      Value.Blotted (.object ms) ('{' :: blanks ++ commaSeparated texts ++ ['}'])
  | between {v : Value} {before text after : List Char} (hb : Blank before) (ha : Blank after)
      (h : Value.Blotted v text) : Value.Blotted v (before ++ text ++ after)

inductive Value.BlottedItems : List Value → List (List Char) → Prop
  | nil : Value.BlottedItems [] []
  | cons {item : Value} {items : List Value} {text : List Char} {texts : List (List Char)}
      (h : Value.Blotted item text) (hs : Value.BlottedItems items texts) :
      Value.BlottedItems (item :: items) (text :: texts)
  | blot {item : Value} {items : List Value} {text : List Char} {texts : List (List Char)}
      (h : Unreadable text) (hs : Value.BlottedItems items texts) :
      Value.BlottedItems (item :: items) (text :: texts)

inductive Value.BlottedMembers : List (String × Value) → List (List Char) → Prop
  | nil : Value.BlottedMembers [] []
  | cons {key : String} {v : Value} {ms : List (String × Value)} {text value : List Char}
      {texts : List (List Char)} (hm : IsMember text key value) (h : Value.Blotted v value)
      (hs : Value.BlottedMembers ms texts) :
      Value.BlottedMembers ((key, v) :: ms) (text :: texts)

end

mutual

/-- With a blot in it, the whole text can not be read. -/
theorem Value.Blotted.text_or_unreadable : ∀ {v : Value} {text : List Char}, v.Blotted text →
    v.Text text ∨ Unreadable text
  | _, _, .text h => .inl h
  | _, _, .array hb h => by
    obtain ⟨hs, hi | hf⟩ := h.texts_or_unreadable
    · exact .inl (.array hb hi)
    · exact .inr (unreadable_array hb hs hf)
  | _, _, .object hb h => by
    obtain ⟨values, hk, hs, hm | hf⟩ := h.texts_or_unreadable
    · exact .inl (.object hb hm)
    · exact .inr (unreadable_object hb hk hs hf)
  | _, _, .between hb ha h => h.text_or_unreadable.imp (.between hb ha) (.between · hb ha)

theorem Value.BlottedItems.texts_or_unreadable : ∀ {items : List Value}
    {texts : List (List Char)}, Value.BlottedItems items texts →
      (∀ t ∈ texts, (∃ v : Value, v.Text t) ∨ Unreadable t) ∧
        (Value.ItemTexts items texts ∨ ∃ t ∈ texts, Unreadable t)
  | _, _, .nil => ⟨nofun, .inl .nil⟩
  | _, _, .cons h hs => by
    obtain ⟨hread, hrest⟩ := hs.texts_or_unreadable
    rcases h.text_or_unreadable with h | h
    · refine ⟨List.forall_mem_cons.mpr ⟨.inl ⟨_, h⟩, hread⟩, hrest.imp (.cons h) ?_⟩
      rintro ⟨t, ht, hf⟩
      exact ⟨t, List.mem_cons_of_mem _ ht, hf⟩
    · exact ⟨List.forall_mem_cons.mpr ⟨.inr h, hread⟩, .inr ⟨_, List.mem_cons_self, h⟩⟩
  | _, _, .blot h hs => by
    obtain ⟨hread, -⟩ := hs.texts_or_unreadable
    exact ⟨List.forall_mem_cons.mpr ⟨.inr h, hread⟩, .inr ⟨_, List.mem_cons_self, h⟩⟩

theorem Value.BlottedMembers.texts_or_unreadable : ∀ {ms : List (String × Value)}
    {texts : List (List Char)}, Value.BlottedMembers ms texts →
      ∃ values, List.Forall₂ (fun text value => ∃ key, IsMember text key value) texts values ∧
        (∀ t ∈ values, (∃ v : Value, v.Text t) ∨ Unreadable t) ∧
        (Value.MemberTexts ms texts ∨ ∃ t ∈ values, Unreadable t)
  | _, _, .nil => ⟨[], .nil, nofun, .inl .nil⟩
  | _, _, .cons hm h hs => by
    obtain ⟨values, hk, hread, hrest⟩ := hs.texts_or_unreadable
    refine ⟨_, .cons ⟨_, hm⟩ hk, ?_⟩
    rcases h.text_or_unreadable with h | h
    · refine ⟨List.forall_mem_cons.mpr ⟨.inl ⟨_, h⟩, hread⟩, hrest.imp (.cons hm h) ?_⟩
      rintro ⟨t, ht, hf⟩
      exact ⟨t, List.mem_cons_of_mem _ ht, hf⟩
    · exact ⟨List.forall_mem_cons.mpr ⟨.inr h, hread⟩, .inr ⟨_, List.mem_cons_self, h⟩⟩

end

/-! ## Records with one field -/

theorem Reader.Follows.holds_or_refuses {read : Reader α} {room : Nat} {decode : Decoder α}
    (h : read.Follows room decode) {v : Value} {text : List Char} (ht : v.Text text) :
    (∃ a, Holds (read room) text a) ∨ Refuses (read room) text := by
  cases hd : decode v with
  | ok a =>
    refine .inl ⟨a, fun rest hr => ?_⟩
    obtain ⟨mid, hv, hm⟩ := ht.spells (Nat.le_refl _) rest hr
    exact ⟨mid, by rw [h hv, hd, map_ok], hm⟩
  | error e =>
    refine .inr fun rest hr x hx => ?_
    obtain ⟨mid, hv, -⟩ := ht.spells (Nat.le_refl _) rest hr
    rw [h hv, hd] at hx
    nomatch hx

theorem Items.exists_of_imp {β : Type} {R : List Char → α → List Char → Prop}
    {S : List Char → β → List Char → Prop}
    (hRS : ∀ text a rest, R text a rest → ∃ b, S text b rest) {isFirst : Bool}
    {text rest : List Char} {as : List α} (h : Items R isFirst text as rest) :
    ∃ bs, Items S isFirst text bs rest := by
  induction h with
  | close h => exact ⟨[], .close h⟩
  | item h ha _ ih =>
    obtain ⟨b, hb⟩ := hRS _ _ _ ha
    obtain ⟨bs, hbs⟩ := ih
    exact ⟨b :: bs, .item h hb hbs⟩

theorem Reader.readValue_of_list {item : Reader α} {room : Nat}
    (h : ∀ text a rest, item room text = .ok (a, rest) → ∃ v, readValue room text = .ok (v, rest))
    {text rest : List Char} {as : List α}
    (hl : Reader.list item (room + 1) text = .ok (as, rest)) :
    ∃ v, readValue (room + 1) text = .ok (v, rest) := by
  unfold Reader.list at hl
  split at hl
  · rename_i inner hb
    obtain ⟨items, hi⟩ := (items_of_readItems hl).exists_of_imp h
    exact ⟨_, readValue_of_valueAt (.array hb hi)⟩
  · exact absurd hl (wrongType_ne_ok _ _ _)

theorem Reader.list_skipBlanks (item : Reader α) (room : Nat) (text : List Char) :
    Reader.list item room (skipBlanks text) = Reader.list item room text := by
  simp only [Reader.list, Reader.wrongType, skipBlanks_skipBlanks]

theorem Reader.record_skipBlanks {σ : Type} (r : Record Reader σ α) (room : Nat)
    (text : List Char) : Reader.record r room (skipBlanks text) = Reader.record r room text := by
  simp only [Reader.record, Reader.wrongType, skipBlanks_skipBlanks]

section

variable {σ : Type} {room : Nat} {r : Record Reader σ α} (field : Field Reader σ)

theorem Reader.value_of_member {s s' : List String × σ} {key : String}
    {colon value rest : List Char} (h : Reader.member r room s key colon = .ok (s', rest))
    (hc : skipBlanks colon = ':' :: value) :
    (r.field? key = none ∧ skipValue value = .ok rest) ∨
      ∃ field store, r.field? key = some field ∧ field.value room value = .ok (store, rest) := by
  obtain ⟨found, hfound, h⟩ := bind_ok_iff.mp h
  rw [Record.unseenField?] at hfound
  cases hf : r.field? key with
  | none =>
    rw [hf] at hfound
    obtain rfl : none = found := Except.ok.inj hfound
    obtain ⟨inner, hcolon, h⟩ := bind_ok_iff.mp h
    obtain ⟨-, rfl⟩ := List.cons.inj ((expectColon_ok_iff.mp hcolon).symm.trans hc)
    obtain ⟨mid, hskip, heq⟩ := bind_ok_iff.mp h
    obtain ⟨-, rfl⟩ := Prod.mk.inj (Except.ok.inj heq)
    exact .inl ⟨rfl, hskip⟩
  | some field =>
    simp only [hf] at hfound
    split at hfound
    · cases hfound
    · obtain rfl := Except.ok.inj hfound
      obtain ⟨inner, hcolon, h⟩ := bind_ok_iff.mp h
      obtain ⟨-, rfl⟩ := List.cons.inj ((expectColon_ok_iff.mp hcolon).symm.trans hc)
      obtain ⟨⟨store, mid⟩, hvalue, heq⟩ := bind_ok_iff.mp h
      obtain ⟨-, rfl⟩ := Prod.mk.inj (Except.ok.inj heq)
      exact .inr ⟨field, store, rfl, hvalue⟩

/-- A member that a record reads or refuses, if it does not pass it over. -/
def Record.MemberText (r : Record Reader σ α) (room : Nat) (text value : List Char) : Prop :=
  (∃ v : Value, v.Text value) ∧ ∃ key, IsMember text key value ∧
    ∀ field, r.field? key = some field →
      (∃ a, Holds (field.value room) value a) ∨ Refuses (field.value room) value

/-- What is left after a member has been read. -/
theorem Record.MemberText.rest {text value more : List Char} (h : r.MemberText room text value)
    (hends : EndsNumber more) {isFirst : Bool} {mid : List Char} {found : NextMember}
    (hm : skipBlanks mid = if isFirst then skipBlanks (text ++ more) else ',' :: (text ++ more))
    (hn : MemberAt isFirst mid found) : ∃ key colon, found = .member key colon ∧
      ∀ s s' rest, Reader.member r room s key colon = .ok (s', rest) →
        skipBlanks rest = skipBlanks more := by
  obtain ⟨⟨v, hv⟩, key, hk, hfield⟩ := h
  obtain ⟨colon, rfl, hc⟩ := hn.of_text isFirst hk hm
  refine ⟨key, colon, rfl, fun s s' rest hmember => ?_⟩
  rcases Reader.value_of_member hmember hc with ⟨-, hskip⟩ | ⟨field, store, hf, hvalue⟩
  · obtain ⟨mid, hread, hmid⟩ := hv.spells (Nat.le_refl _) more hends
    obtain rfl := Except.ok.inj (hskip.symm.trans (skipValue_of_readValue hread))
    exact hmid
  · rcases hfield field hf with ⟨a, hholds⟩ | hrefuses
    · obtain ⟨mid, hread, hmid⟩ := hholds more hends
      obtain ⟨-, rfl⟩ := Prod.mk.inj (Except.ok.inj (hvalue.symm.trans hread))
      exact hmid
    · exact absurd hvalue (hrefuses more hends _)

/-- Where each field reads or refuses the text of any value, a record does so with any members. -/
theorem Record.memberTexts (hf : ∀ {key field}, r.field? key = some field → ∀ {v : Value} {text},
      v.Text text → (∃ a, Holds (field.value room) text a) ∨ Refuses (field.value room) text)
    {texts values : List (List Char)}
    (hk : List.Forall₂ (fun text value => ∃ key, IsMember text key value) texts values)
    (hv : ∀ value ∈ values, ∃ v : Value, v.Text value) :
    List.Forall₂ (r.MemberText room) texts values := by
  induction hk with
  | nil => exact .nil
  | cons hmember _ ih =>
    obtain ⟨hvalue, hv⟩ := List.forall_mem_cons.mp hv
    obtain ⟨key, hmember⟩ := hmember
    obtain ⟨v, htext⟩ := hvalue
    exact .cons ⟨⟨v, htext⟩, key, hmember, fun field h => hf h htext⟩ (ih hv)

/-- No record is read past a member whose value its field refuses. -/
theorem Record.not_members {key : String} (hr : r.field? key = some field)
    {text value : List Char} {earlier values later : List (List Char)}
    (hearlier : List.Forall₂ (r.MemberText room) earlier values) (hk : IsMember text key value)
    (hv : Refuses (field.value room) value) {isFirst : Bool} {mid rest : List Char}
    (hm : skipBlanks mid = if isFirst
      then skipBlanks (commaSeparated (earlier ++ text :: later) ++ '}' :: rest)
      else commaBefore (earlier ++ text :: later) ++ '}' :: rest) (count : Nat)
    (s : List String × σ) (x : (List String × σ) × List Char) :
    foldMembers (Reader.member r room) count isFirst mid s ≠ .ok x := by
  intro h
  induction hearlier generalizing isFirst mid count s with
  | nil =>
    cases count with
    | zero => simp [foldMembers] at h
    | succ count =>
      have hends := endsNumber_commaBefore later (.inr rfl) rest
      obtain ⟨found, hn, h⟩ := bind_ok_iff.mp h
      obtain ⟨colon, rfl, hc⟩ := (nextMember_ok_iff.mp hn).of_text isFirst hk
        (by simpa [commaSeparated_cons, commaBefore] using hm)
      obtain ⟨⟨s', mid'⟩, hmember, -⟩ := bind_ok_iff.mp h
      rcases Reader.value_of_member hmember hc with ⟨hnone, -⟩ | ⟨_, store, hsome, hvalue⟩
      · cases hr.symm.trans hnone
      · obtain rfl := Option.some.inj (hr.symm.trans hsome)
        exact hv _ hends _ hvalue
  | @cons first _ earlier _ hfirst _ ih =>
    cases count with
    | zero => simp [foldMembers] at h
    | succ count =>
      have hends := endsNumber_commaBefore (earlier ++ text :: later) (.inr rfl) rest
      obtain ⟨found, hn, h⟩ := bind_ok_iff.mp h
      obtain ⟨key, colon, rfl, hrest⟩ := hfirst.rest hends
        (by simpa [commaSeparated_cons, commaBefore] using hm) (nextMember_ok_iff.mp hn)
      obtain ⟨⟨s', mid'⟩, hmember, h⟩ := bind_ok_iff.mp h
      refine ih ?_ count s' h
      exact (hrest _ _ _ hmember).trans (skipBlanks_commaBefore _ (.inr rfl) rest)

theorem Record.refuses_members {key : String} (hr : r.field? key = some field)
    {blanks text value : List Char} {earlier values later : List (List Char)} (hb : Blank blanks)
    (hearlier : List.Forall₂ (r.MemberText room) earlier values) (hk : IsMember text key value)
    (hv : Refuses (field.value room) value) :
    Refuses (Reader.record r (room + 1))
      ('{' :: blanks ++ commaSeparated (earlier ++ text :: later) ++ ['}']) := by
  rintro rest - x hx
  have htext : '{' :: blanks ++ commaSeparated (earlier ++ text :: later) ++ ['}'] ++ rest =
      '{' :: (blanks ++ (commaSeparated (earlier ++ text :: later) ++ '}' :: rest)) := by simp
  have hblanks := skipBlanks_append_of_nil hb.skip
    (commaSeparated (earlier ++ text :: later) ++ '}' :: rest)
  rw [htext, Reader.record, skipBlanks_cons_of_not (by decide)] at hx
  obtain ⟨⟨state, last⟩, hms, -⟩ := bind_ok_iff.mp (show Reader.members r room _ = .ok x from hx)
  exact Record.not_members field hr hearlier hk hv hblanks _ _ _ hms

theorem Record.refuses_member {key : String} (hr : r.field? key = some field)
    {blanks text value : List Char} {texts : List (List Char)} (hb : Blank blanks)
    (hk : IsMember text key value) (hv : Refuses (field.value room) value) :
    Refuses (Reader.record r (room + 1))
      ('{' :: blanks ++ commaSeparated (text :: texts) ++ ['}']) :=
  Record.refuses_members field hr hb .nil hk hv

theorem Record.refuses_items (hr : r.fields = [field]) {blanks text : List Char}
    {texts : List (List Char)} (hb : Blank blanks) (ht : Begins text)
    (hread : ∀ text, field.value room (skipBlanks text) = field.value room text)
    (hs : (∃ a, Holds (field.value room) text a) ∨ Refuses (field.value room) text)
    (hf : Refuses (field.value room) text ∨ texts ≠ []) :
    Refuses (Reader.record r (room + 1))
      ('[' :: blanks ++ commaSeparated (text :: texts) ++ [']']) := by
  rintro rest - x hx
  have htext : '[' :: blanks ++ commaSeparated (text :: texts) ++ [']'] ++ rest =
      '[' :: (blanks ++ (text ++ (commaBefore texts ++ ']' :: rest))) := by
    simp [commaSeparated_cons]
  have hblanks := skipBlanks_append_of_nil hb.skip (text ++ (commaBefore texts ++ ']' :: rest))
  have hends := endsNumber_commaBefore texts (.inl rfl) rest
  rw [htext, Reader.record, skipBlanks_cons_of_not (by decide)] at hx
  obtain ⟨⟨state, last⟩, hitems, -⟩ := bind_ok_iff.mp (show Reader.items r room _ = .ok x from hx)
  rw [hr] at hitems
  obtain ⟨next, hn, hitems⟩ := bind_ok_iff.mp hitems
  rw [nextItem_ok_iff] at hn
  cases next with
  | close => exact (ht.append _).not_close true hblanks hn
  | item inner =>
    obtain ⟨⟨store, mid⟩, hvalue, hend⟩ := bind_ok_iff.mp hitems
    rw [hn.inner_eq true hblanks, hread] at hvalue
    rcases hf with hf | hf
    · exact hf _ hends _ hvalue
    · obtain ⟨a, hs⟩ | hs := hs
      · obtain ⟨mid', ha, hmid⟩ := hs _ hends
        obtain ⟨-, rfl⟩ := Prod.mk.inj (Except.ok.inj (hvalue.symm.trans ha))
        obtain ⟨rest', hend, -⟩ := bind_ok_iff.mp hend
        obtain ⟨next, texts, rfl⟩ := List.exists_cons_of_ne_nil hf
        rw [endList_ok_iff, hmid, skipBlanks_commaBefore _ (.inl rfl)] at hend
        exact absurd (List.cons.inj hend).1 (by decide)
      · exact hs _ hends _ hvalue

end

end IcuMessage.Json
