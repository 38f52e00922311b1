/-
Texts put together from texts of values: lists and objects whose items and
members are spelled somehow spell the list and the object (`spells_array`,
`spells_object`). A text whose tokens say what the value is, with blanks between
them at will, spells the value (`Value.Text.spells`), and so does what is written
for it (`spells_write`), if the value has no floats and its integers have their
place in 64 bits.
-/
import Mathlib.Data.List.TakeWhile
import IcuMessage.Json.Write
import IcuMessage.Proofs.Json.Values

namespace IcuMessage.Json

variable {α : Type}

/-- Wherever the text stands, the reader gets `a` from it and leaves at most blanks of it. -/
def Holds (read : List Char → Except Error (α × List Char)) (text : List Char) (a : α) : Prop :=
  ∀ rest, EndsNumber rest →
    ∃ mid, read (text ++ rest) = .ok (a, mid) ∧ skipBlanks mid = skipBlanks rest

/-- Wherever the text stands, the value is read from it, and at most blanks of it are left. -/
def Spells (room : Nat) (text : List Char) (v : Value) : Prop :=
  Holds (readValue room) text v

theorem spells_of_readValue {room : Nat} {text blanks : List Char} {v : Value}
    (h : readValue room text = .ok (v, blanks)) (hb : skipBlanks blanks = []) :
    Spells room text v :=
  fun rest hr => ⟨blanks ++ rest, readValue_append h fun _ => hr, skipBlanks_append_of_nil hb rest⟩

theorem Spells.of_depth_le {big room : Nat} {text : List Char} {v : Value}
    (h : Spells big text v) (hd : v.depth ≤ room) : Spells room text v := by
  intro rest hr
  obtain ⟨mid, hv, hm⟩ := h rest hr
  exact ⟨mid, by rw [readValue_eq_within hv, Value.within, if_pos hd, map_ok], hm⟩

theorem endsNumber_cons {c : Char} (hc : c = ',' ∨ c = ']' ∨ c = '}') (rest : List Char) :
    EndsNumber (c :: rest) := by
  intro d hd
  simp only [List.head?_cons, Option.mem_def, Option.some.injEq] at hd
  subst hd
  rcases hc with rfl | rfl | rfl <;> decide

/-! ## Blanks -/

/-- Nothing but characters that may stand between tokens. -/
def Blank (text : List Char) : Prop :=
  ∀ c ∈ text, isBlank c = true

instance (text : List Char) : Decidable (Blank text) :=
  List.decidableBAll (fun c => isBlank c = true) text

theorem Blank.nil : Blank [] :=
  fun _ h => nomatch h

theorem Blank.skip {text : List Char} (h : Blank text) : skipBlanks text = [] :=
  List.dropWhile_eq_nil_iff.mpr h

theorem Blank.endsNumber {text rest : List Char} (h : Blank text) (hr : EndsNumber rest) :
    EndsNumber (text ++ rest) := by
  cases text with
  | nil => exact hr
  | cons c text =>
    have hc : isBlank c = true := h c List.mem_cons_self
    intro d hd
    obtain rfl : c = d := by simpa using hd
    simp only [isBlank, Bool.or_eq_true, decide_eq_true_eq] at hc
    rcases hc with ((rfl | rfl) | rfl) | rfl <;> decide

/-! ## Texts with commas -/

/-- What follows the first of several texts. -/
def commaBefore (texts : List (List Char)) : List Char :=
  texts.flatMap (',' :: ·)

theorem commaSeparated_cons (text : List Char) (texts : List (List Char)) :
    commaSeparated (text :: texts) = text ++ commaBefore texts := by
  induction texts generalizing text with
  | nil => simp [commaSeparated, commaBefore]
  | cons t texts ih =>
    have := ih t
    simp only [commaSeparated, commaBefore, List.flatMap_cons] at this ⊢
    rw [List.intercalate_cons_cons, this]
    simp

theorem commaSeparated_cons_cons (text next : List Char) (texts : List (List Char)) :
    commaSeparated (text :: next :: texts) = text ++ ',' :: commaSeparated (next :: texts) := by
  rw [commaSeparated, List.intercalate_cons_cons, commaSeparated, List.append_assoc]
  rfl

theorem commaSeparated_concat (texts : List (List Char)) (text : List Char) :
    commaSeparated (texts ++ [text]) = texts.flatMap (· ++ [',']) ++ text := by
  induction texts with
  | nil => simp [commaSeparated]
  | cons t texts ih =>
    rw [List.cons_append, List.flatMap_cons, List.append_assoc, ← ih]
    cases texts <;> simp [commaSeparated, List.intercalate_cons_cons]

theorem endsNumber_commaBefore (texts : List (List Char)) {c : Char} (hc : c = ']' ∨ c = '}')
    (rest : List Char) : EndsNumber (commaBefore texts ++ c :: rest) := by
  cases texts with
  | nil => exact endsNumber_cons (.inr hc) rest
  | cons text texts => exact endsNumber_cons (.inl rfl) _

theorem skipBlanks_commaBefore (texts : List (List Char)) {c : Char} (hc : c = ']' ∨ c = '}')
    (rest : List Char) :
    skipBlanks (commaBefore texts ++ c :: rest) = commaBefore texts ++ c :: rest := by
  cases texts with
  | nil => exact skipBlanks_cons_of_not (by rcases hc with rfl | rfl <;> decide) rest
  | cons text texts => exact skipBlanks_cons_of_not (by decide) _

/-! ## Lists -/

/-- The items after the first, at the end of what was read of it. -/
theorem items_of_spells {room : Nat} {texts : List (List Char)} {items : List Value}
    (h : List.Forall₂ (Spells room) texts items) {mid rest : List Char}
    (hm : skipBlanks mid = commaBefore texts ++ ']' :: rest) :
    Items (Reads (readValue room)) false mid items rest := by
  induction h generalizing mid with
  | nil => exact .close (.close hm)
  | @cons text item texts items ht _ ih =>
    obtain ⟨next, hr, hn⟩ := ht _ (endsNumber_commaBefore texts (.inl rfl) rest)
    obtain ⟨c, inner, hs, hc, -⟩ := head_of_readValue hr
    have hv : readValue room (c :: inner) = .ok (item, next) := by
      rw [← hs, readValue_skipBlanks]
      exact hr
    have hcomma : skipBlanks mid = ',' :: (text ++ (commaBefore texts ++ ']' :: rest)) := by
      simpa [commaBefore] using hm
    exact .item (.next hcomma hs hc) hv
      (ih (hn.trans (skipBlanks_commaBefore texts (.inl rfl) rest)))

theorem spells_array {room : Nat} {blanks : List Char} (hb : Blank blanks)
    {texts : List (List Char)} {items : List Value} (h : List.Forall₂ (Spells room) texts items) :
    Spells (room + 1) ('[' :: blanks ++ commaSeparated texts ++ [']']) (.array items) := by
  intro rest _
  have htext : '[' :: blanks ++ commaSeparated texts ++ [']'] ++ rest =
      '[' :: (blanks ++ (commaSeparated texts ++ ']' :: rest)) := by simp
  rw [htext]
  refine ⟨rest, readValue_of_valueAt (.array (skipBlanks_cons_of_not (by decide) _) ?_), rfl⟩
  have hskip := skipBlanks_append_of_nil hb.skip (commaSeparated texts ++ ']' :: rest)
  cases h with
  | nil => exact .close (.close (hskip.trans (skipBlanks_cons_of_not (by decide) _)))
  | @cons text item texts items ht hts =>
    obtain ⟨next, hr, hn⟩ := ht _ (endsNumber_commaBefore texts (.inl rfl) rest)
    obtain ⟨c, inner, hs, hc, -⟩ := head_of_readValue hr
    have hv : readValue room (c :: inner) = .ok (item, next) := by
      rw [← hs, readValue_skipBlanks]
      exact hr
    rw [commaSeparated_cons, List.append_assoc] at hskip ⊢
    exact .item (.first (hskip.trans hs) hc) hv
      (items_of_spells hts (hn.trans (skipBlanks_commaBefore texts (.inl rfl) rest)))

/-! ## Objects -/

/-- The text of a member. -/
def memberText (key : String) (text : List Char) : List Char :=
  StringLiteral.write key ++ ':' :: text

/-- The text is that of a member: a literal of its key, a colon and the text of its value, with
blanks before and after the literal at will. -/
def IsMember (text : List Char) (key : String) (value : List Char) : Prop :=
  ∃ before literal after, text = before ++ '"' :: literal ++ after ++ ':' :: value ∧
    Blank before ∧ Blank after ∧ StringLiteral.read literal = .ok (key, [])

theorem isMember_memberText (key : String) (value : List Char) :
    IsMember (memberText key value) key value :=
  ⟨[], key.toList.flatMap StringLiteral.writeChar ++ ['"'], [],
    by simp [memberText, StringLiteral.write], .nil, .nil, StringLiteral.read_write key []⟩

/-- What is read of a member before its value, wherever it stands. -/
theorem IsMember.read_key {text value : List Char} {key : String} (h : IsMember text key value)
    (rest : List Char) : ∃ inner colon, skipBlanks (text ++ rest) = '"' :: inner ∧
      StringLiteral.read inner = .ok (key, colon) ∧ skipBlanks colon = ':' :: (value ++ rest) := by
  obtain ⟨before, literal, after, rfl, hb, ha, hk⟩ := h
  have htext : before ++ '"' :: literal ++ after ++ ':' :: value ++ rest =
      before ++ '"' :: (literal ++ (after ++ ':' :: (value ++ rest))) := by simp
  refine ⟨_, _, ?_, StringLiteral.read_append hk (after ++ ':' :: (value ++ rest)), ?_⟩
  · rw [htext, skipBlanks_append_of_nil hb.skip, skipBlanks_cons_of_not (by decide)]
  · rw [List.nil_append, skipBlanks_append_of_nil ha.skip, skipBlanks_cons_of_not (by decide)]

/-- The text is that of a member whose value is read from what stands after the colon. -/
def HoldsMember (read : List Char → Except Error (α × List Char)) (text : List Char)
    (m : String × α) : Prop :=
  ∃ value, IsMember text m.1 value ∧ Holds read value m.2

theorem members_of_holds {read : List Char → Except Error (α × List Char)}
    {texts : List (List Char)} {ms : List (String × α)}
    (h : List.Forall₂ (HoldsMember read) texts ms) {mid rest : List Char}
    (hm : skipBlanks mid = commaBefore texts ++ '}' :: rest) :
    Members (Reads read) false mid ms rest := by
  induction h generalizing mid with
  | nil => exact .close (.close hm)
  | @cons text m texts ms ht _ ih =>
    obtain ⟨value, hmember, hvalue⟩ := ht
    obtain ⟨inner, colon, hq, hk, hc⟩ := hmember.read_key (commaBefore texts ++ '}' :: rest)
    obtain ⟨next, hv, hn⟩ := hvalue _ (endsNumber_commaBefore texts (.inr rfl) rest)
    have hcomma : skipBlanks mid = ',' :: (text ++ (commaBefore texts ++ '}' :: rest)) := by
      simpa [commaBefore] using hm
    exact .member (.next hcomma hq hk) hc hv
      (ih (hn.trans (skipBlanks_commaBefore texts (.inr rfl) rest)))

/-- All members of an object, from after its brace. -/
theorem allMembers_of_holds {read : List Char → Except Error (α × List Char)} {blanks : List Char}
    (hb : Blank blanks) {texts : List (List Char)} {ms : List (String × α)}
    (h : List.Forall₂ (HoldsMember read) texts ms) (rest : List Char) :
    Members (Reads read) true (blanks ++ (commaSeparated texts ++ '}' :: rest)) ms rest := by
  have hskip := skipBlanks_append_of_nil hb.skip (commaSeparated texts ++ '}' :: rest)
  cases h with
  | nil => exact .close (.close (hskip.trans (skipBlanks_cons_of_not (by decide) _)))
  | @cons text m texts ms ht hts =>
    obtain ⟨value, hmember, hvalue⟩ := ht
    obtain ⟨inner, colon, hq, hk, hc⟩ := hmember.read_key (commaBefore texts ++ '}' :: rest)
    obtain ⟨next, hv, hn⟩ := hvalue _ (endsNumber_commaBefore texts (.inr rfl) rest)
    rw [commaSeparated_cons, List.append_assoc] at hskip ⊢
    exact .member (.first (hskip.trans hq) hk) hc hv
      (members_of_holds hts (hn.trans (skipBlanks_commaBefore texts (.inr rfl) rest)))

/-- The text is that of a member whose value is spelled by what stands after the colon. -/
def SpellsMember (room : Nat) (text : List Char) (m : String × Value) : Prop :=
  ∃ value, IsMember text m.1 value ∧ Spells room value m.2

theorem spells_object {room : Nat} {blanks : List Char} (hb : Blank blanks)
    {texts : List (List Char)} {ms : List (String × Value)}
    (h : List.Forall₂ (SpellsMember room) texts ms) :
    Spells (room + 1) ('{' :: blanks ++ commaSeparated texts ++ ['}']) (.object ms) := by
  intro rest _
  have htext : '{' :: blanks ++ commaSeparated texts ++ ['}'] ++ rest =
      '{' :: (blanks ++ (commaSeparated texts ++ '}' :: rest)) := by simp
  rw [htext]
  exact ⟨rest, readValue_of_valueAt (.object (skipBlanks_cons_of_not (by decide) _)
    (allMembers_of_holds hb h rest)), rfl⟩

/-! ## Texts of values -/

mutual

/-- The text stands for the value. Between its tokens there are blanks at will; what it says is
all in its scalars and keys. -/
inductive Value.Text : Value → List Char → Prop
  | scalar {v : Value} {text : List Char} (h : ScalarAt text v []) : Value.Text v text
  | array {items : List Value} {blanks : List Char} {texts : List (List Char)} (hb : Blank blanks)
      (h : Value.ItemTexts items texts) :
      Value.Text (.array items) ('[' :: blanks ++ commaSeparated texts ++ [']'])
  | object {ms : List (String × Value)} {blanks : List Char} {texts : List (List Char)}
      (hb : Blank blanks) (h : Value.MemberTexts ms texts) :
      Value.Text (.object ms) ('{' :: blanks ++ commaSeparated texts ++ ['}'])
  | between {v : Value} {before text after : List Char} (hb : Blank before) (ha : Blank after)
      (h : Value.Text v text) : Value.Text v (before ++ text ++ after)

inductive Value.ItemTexts : List Value → List (List Char) → Prop
  | nil : Value.ItemTexts [] []
  | cons {item : Value} {items : List Value} {text : List Char} {texts : List (List Char)}
      (h : Value.Text item text) (hs : Value.ItemTexts items texts) :
      Value.ItemTexts (item :: items) (text :: texts)

inductive Value.MemberTexts : List (String × Value) → List (List Char) → Prop
  | nil : Value.MemberTexts [] []
  | cons {key : String} {v : Value} {ms : List (String × Value)} {text value : List Char}
      {texts : List (List Char)} (hm : IsMember text key value) (h : Value.Text v value)
      (hs : Value.MemberTexts ms texts) : Value.MemberTexts ((key, v) :: ms) (text :: texts)

end

theorem not_isBlank_of_number {c : Char} (h : (c = '-' || c.isDigit) = true) :
    isBlank c = false := by
  simp only [isBlank, decide_eq_false_iff_not, Bool.or_eq_false_iff]
  refine ⟨⟨⟨?_, ?_⟩, ?_⟩, ?_⟩ <;> (rintro rfl; revert h; decide)

theorem not_isBlank_of_scalarAt {c : Char} {inner rest : List Char} {v : Value}
    (h : ScalarAt (c :: inner) v rest) : isBlank c = false := by
  cases h with
  | null | true | false | string => decide
  | number hc => exact not_isBlank_of_number hc

theorem spells_scalar {room : Nat} {text : List Char} {v : Value} (h : ScalarAt text v []) :
    Spells room text v := by
  intro rest hr
  have hs : ScalarAt (text ++ rest) v rest := h.append fun _ => hr
  obtain ⟨c, inner, htext, -⟩ := hs.head
  rw [htext] at hs ⊢
  exact ⟨rest, readValue_scalar (skipBlanks_cons_of_not (not_isBlank_of_scalarAt hs) _) hs, rfl⟩

theorem Spells.between {room : Nat} {before text after : List Char} {v : Value}
    (h : Spells room text v) (hb : Blank before) (ha : Blank after) :
    Spells room (before ++ text ++ after) v := by
  intro rest hr
  obtain ⟨mid, hv, hm⟩ := h (after ++ rest) (ha.endsNumber hr)
  refine ⟨mid, ?_, hm.trans (skipBlanks_append_of_nil ha.skip rest)⟩
  rw [List.append_assoc, List.append_assoc, ← readValue_skipBlanks,
    skipBlanks_append_of_nil hb.skip, readValue_skipBlanks]
  exact hv

mutual

/-- A text of a value spells it, wherever there is room for its containers. -/
theorem Value.Text.spells : ∀ {room : Nat} {v : Value} {text : List Char}, Value.Text v text →
    v.depth ≤ room → Spells room text v
  | _, _, _, .scalar h, _ => spells_scalar h
  | 0, _, _, .array _ _, hd => absurd hd (by simp [Value.depth])
  | 0, _, _, .object _ _, hd => absurd hd (by simp [Value.depth])
  | _ + 1, _, _, .array hb h, hd => spells_array hb (h.spells (Nat.le_of_succ_le_succ hd))
  | _ + 1, _, _, .object hb h, hd => spells_object hb (h.spells (Nat.le_of_succ_le_succ hd))
  | _, _, _, .between hb ha h, hd => (h.spells hd).between hb ha

theorem Value.ItemTexts.spells : ∀ {room : Nat} {items : List Value} {texts : List (List Char)},
    Value.ItemTexts items texts → Value.depthItems items ≤ room →
      List.Forall₂ (Spells room) texts items
  | _, _, _, .nil, _ => .nil
  | _, _, _, .cons h hs, hd =>
    .cons (h.spells (Nat.le_trans (Nat.le_max_left _ _) hd))
      (hs.spells (Nat.le_trans (Nat.le_max_right _ _) hd))

theorem Value.MemberTexts.spells : ∀ {room : Nat} {ms : List (String × Value)}
    {texts : List (List Char)}, Value.MemberTexts ms texts → Value.depthMembers ms ≤ room →
      List.Forall₂ (SpellsMember room) texts ms
  | _, _, _, .nil, _ => .nil
  | _, _, _, .cons hm h hs, hd =>
    .cons ⟨_, hm, h.spells (Nat.le_trans (Nat.le_max_left _ _) hd)⟩
      (hs.spells (Nat.le_trans (Nat.le_max_right _ _) hd))

end

/-! ## Written values -/

mutual

/-- No floats, and every integer has its place in 64 bits, with a sign or without. -/
def Value.Plain : Value → Prop
  | .null | .bool _ | .string _ => True
  | .int n => Int64.minValue.toInt ≤ n ∧ n < UInt64.size
  | .float _ => False
  | .array items => Value.PlainItems items
  | .object members => Value.PlainMembers members

def Value.PlainItems : List Value → Prop
  | [] => True
  | item :: items => item.Plain ∧ Value.PlainItems items

def Value.PlainMembers : List (String × Value) → Prop
  | [] => True
  | (_, value) :: members => value.Plain ∧ Value.PlainMembers members

end

theorem Value.plainItems_iff {items : List Value} :
    Value.PlainItems items ↔ ∀ v ∈ items, v.Plain := by
  induction items with
  | nil => simp [Value.PlainItems]
  | cons v items ih => rw [Value.PlainItems, ih, List.forall_mem_cons]

theorem Value.plainMembers_iff {ms : List (String × Value)} :
    Value.PlainMembers ms ↔ ∀ m ∈ ms, m.2.Plain := by
  induction ms with
  | nil => simp [Value.PlainMembers]
  | cons m ms ih => rw [Value.PlainMembers, ih, List.forall_mem_cons]

theorem scalarAt_integer {n : Int} (hl : Int64.minValue.toInt ≤ n) (hu : n < UInt64.size) :
    ScalarAt (Decimal.integer n) (.int n) [] := by
  obtain ⟨c, inner, hc⟩ : ∃ c inner, Decimal.integer n = c :: inner := by
    cases n with
    | ofNat n => exact List.exists_cons_of_ne_nil (Decimal.natural_ne_nil n)
    | negSucc n => exact ⟨_, _, rfl⟩
  have hd : c = '-' ∨ c.isDigit = true :=
    Decimal.isDigit_of_mem_integer (n := n) (by rw [hc]; exact List.mem_cons_self)
  have hscan := Literal.scan_integer .endInValue n .nil
  rw [List.append_nil] at hscan
  rw [hc] at hscan ⊢
  exact .number (by simpa using hd) hscan (Literal.value_ofInt hl hu)

theorem scalarAt_string (s : String) : ScalarAt (StringLiteral.write s) (.string s) [] :=
  .string (StringLiteral.read_write s [])

theorem spells_string {room : Nat} (s : String) :
    Spells room (StringLiteral.write s) (.string s) :=
  spells_scalar (scalarAt_string s)

mutual

theorem text_write : ∀ {v : Value}, v.Plain → v.Text v.write
  | .null, _ => .scalar .null
  | .bool true, _ => .scalar .true
  | .bool false, _ => .scalar .false
  | .int _, h => .scalar (scalarAt_integer h.1 h.2)
  | .string s, _ => .scalar (scalarAt_string s)
  | .array _, h => .array .nil (text_writeItems h)
  | .object _, h => .object .nil (text_writeMembers h)

theorem text_writeItems : ∀ {items : List Value}, Value.PlainItems items →
    Value.ItemTexts items (Value.writeItems items)
  | [], _ => .nil
  | _ :: _, h => .cons (text_write h.1) (text_writeItems h.2)

theorem text_writeMembers : ∀ {ms : List (String × Value)}, Value.PlainMembers ms →
    Value.MemberTexts ms (Value.writeMembers ms)
  | [], _ => .nil
  | (key, _) :: _, h =>
    .cons (isMember_memberText key _) (text_write h.1) (text_writeMembers h.2)

end

theorem spells_write {room : Nat} {v : Value} (h : v.Plain) (hd : v.depth ≤ room) :
    Spells room v.write v :=
  (text_write h).spells hd

end IcuMessage.Json
