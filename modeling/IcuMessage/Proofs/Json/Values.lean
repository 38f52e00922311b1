/-
Values as they stand in a text. Where a value can be read with some room at
all, four things are known about the text: more text after it changes nothing
(`readValue_append`), the value can be passed over (`skipValue_of_readValue`),
reading it leaves less text (`progress_readValue`), and with any other room it
is read as well if it is not nested deeper than that, else refused for its
nesting (`readValue_eq_within`).
-/
import IcuMessage.Json.Skip
import IcuMessage.Proofs.Json.Containers
import IcuMessage.Proofs.Json.NumberLiterals

namespace IcuMessage.Json

/-! ## Scalars -/

inductive ScalarAt : List Char → Value → List Char → Prop
  | null {rest : List Char} : ScalarAt ('n' :: ("ull".toList ++ rest)) .null rest
  | true {rest : List Char} : ScalarAt ('t' :: ("rue".toList ++ rest)) (.bool true) rest
  | false {rest : List Char} : ScalarAt ('f' :: ("alse".toList ++ rest)) (.bool false) rest
  | string {inner rest : List Char} {s : String} (h : StringLiteral.read inner = .ok (s, rest)) :
      ScalarAt ('"' :: inner) (.string s) rest
  | number {inner rest : List Char} {c : Char} {l : Literal} {v : Value}
      (hc : (c = '-' || c.isDigit) = true)
      (hs : Literal.scan .endInValue (c :: inner) = .ok (l, rest)) (hv : l.value = .ok v) :
      ScalarAt (c :: inner) v rest

/-- The first character of a number begins nothing else. -/
theorem number_head {c : Char} (h : (c = '-' || c.isDigit) = true) :
    c ≠ 'n' ∧ c ≠ 't' ∧ c ≠ 'f' ∧ c ≠ '"' ∧ c ≠ '[' ∧ c ≠ '{' ∧ c ≠ ']' ∧ c ≠ ',' := by
  refine ⟨?_, ?_, ?_, ?_, ?_, ?_, ?_, ?_⟩ <;> (rintro rfl; revert h; decide)

theorem readScalar_ok_iff {text rest : List Char} {v : Value} :
    readScalar text = .ok (v, rest) ↔ ScalarAt text v rest := by
  constructor
  · intro h
    cases text with
    | nil => simp [readScalar] at h
    | cons c inner =>
      simp only [readScalar] at h
      split at h
      · rename_i hc
        subst hc
        obtain ⟨r, hr, h⟩ := bind_ok_iff.mp h
        simp only [Except.ok.injEq, Prod.mk.injEq] at h
        obtain ⟨rfl, rfl⟩ := h
        rw [expectWord_ok_iff.mp hr]
        exact .null
      split at h
      · rename_i hc
        subst hc
        obtain ⟨r, hr, h⟩ := bind_ok_iff.mp h
        simp only [Except.ok.injEq, Prod.mk.injEq] at h
        obtain ⟨rfl, rfl⟩ := h
        rw [expectWord_ok_iff.mp hr]
        exact .true
      split at h
      · rename_i hc
        subst hc
        obtain ⟨r, hr, h⟩ := bind_ok_iff.mp h
        simp only [Except.ok.injEq, Prod.mk.injEq] at h
        obtain ⟨rfl, rfl⟩ := h
        rw [expectWord_ok_iff.mp hr]
        exact .false
      split at h
      · rename_i hc
        subst hc
        obtain ⟨⟨s, r⟩, hr, h⟩ := bind_ok_iff.mp h
        simp only [Except.ok.injEq, Prod.mk.injEq] at h
        obtain ⟨rfl, rfl⟩ := h
        exact .string hr
      split at h
      · rename_i hc
        obtain ⟨⟨l, r⟩, hr, h⟩ := bind_ok_iff.mp h
        obtain ⟨w, hw, h⟩ := bind_ok_iff.mp h
        simp only [Except.ok.injEq, Prod.mk.injEq] at h
        obtain ⟨rfl, rfl⟩ := h
        exact .number hc hr hw
      · simp at h
  · intro h
    cases h with
    | null | true | false => simp [readScalar, expectWord]
    | string h => simp [readScalar, h]
    | number hc hs hv =>
      obtain ⟨hn, ht, hf, hq, -⟩ := number_head hc
      simp only [readScalar, if_neg hn, if_neg ht, if_neg hf, if_neg hq, if_pos hc, hs, hv, ok_bind]

theorem ScalarAt.append {text rest more : List Char} {v : Value} (h : ScalarAt text v rest)
    (hm : rest = [] → EndsNumber more) : ScalarAt (text ++ more) v (rest ++ more) := by
  cases h with
  | null =>
    rw [List.cons_append, List.append_assoc]
    exact .null
  | true =>
    rw [List.cons_append, List.append_assoc]
    exact .true
  | false =>
    rw [List.cons_append, List.append_assoc]
    exact .false
  | string h => exact .string (StringLiteral.read_append h more)
  | number hc hs hv => exact .number hc (Literal.scan_append hs hm) hv

theorem ScalarAt.length_lt {text rest : List Char} {v : Value} (h : ScalarAt text v rest) :
    rest.length < text.length := by
  cases h with
  | null | true | false =>
    simp only [List.length_cons, List.length_append]
    omega
  | string h =>
    have := StringLiteral.length_of_read h
    simp only [List.length_cons]
    omega
  | number _ hs _ => exact Literal.length_of_scan hs

theorem ScalarAt.skip {text rest : List Char} {v : Value} (h : ScalarAt text v rest) :
    skipScalar text = .ok rest := by
  cases h with
  | null | true | false => simp [skipScalar, expectWord]
  | string h => simp [skipScalar, StringLiteral.skip_of_read h]
  | number hc hs hv =>
    obtain ⟨hn, ht, hf, hq, -⟩ := number_head hc
    have hs' := Literal.scan_atEnd hs .invalidNumber
    simp only [skipScalar, if_neg hn, if_neg ht, if_neg hf, if_neg hq, if_pos hc, hs', ok_bind]

theorem ScalarAt.head {text rest : List Char} {v : Value} (h : ScalarAt text v rest) :
    ∃ c inner, text = c :: inner ∧ c ≠ '[' ∧ c ≠ '{' ∧ c ≠ ']' ∧ c ≠ ',' := by
  cases h with
  | null | true | false | string => exact ⟨_, _, rfl, by decide⟩
  | number hc hs hv =>
    obtain ⟨-, -, -, -, h⟩ := number_head hc
    exact ⟨_, _, rfl, h⟩

theorem ScalarAt.piece {text rest : List Char} {v : Value} (h : ScalarAt text v rest) :
    ∃ piece, text = piece ++ rest ∧ piece ≠ [] ∧
      ∀ more, EndsNumber more → ScalarAt (piece ++ more) v more := by
  cases h with
  | null => exact ⟨"null".toList, rfl, by decide, fun _ _ => .null⟩
  | true => exact ⟨"true".toList, rfl, by decide, fun _ _ => .true⟩
  | false => exact ⟨"false".toList, rfl, by decide, fun _ _ => .false⟩
  | string h =>
    obtain ⟨piece, rfl, hpiece⟩ := StringLiteral.read_piece h
    exact ⟨'"' :: piece, rfl, by simp, fun more _ => .string (hpiece more)⟩
  | @number inner _ c l _ hc hs hv =>
    obtain ⟨piece, heq, hne, hpiece⟩ := Literal.scan_piece hs .endInValue
    obtain ⟨d, piece, rfl⟩ := List.exists_cons_of_ne_nil hne
    obtain ⟨rfl, rfl⟩ : c = d ∧ inner = piece ++ rest := List.cons.inj heq
    exact ⟨c :: piece, rfl, hne, fun more hm => .number hc (hpiece more hm) hv⟩

/-! ## Values -/

/-- How a value stands in a text, its containers nested at most `room` deep. -/
inductive ValueAt : Nat → List Char → Value → List Char → Prop
  | array {room : Nat} {text inner rest : List Char} {items : List Value}
      (h : skipBlanks text = '[' :: inner)
      (hi : Items (Reads (readValue room)) true inner items rest) :
      ValueAt (room + 1) text (.array items) rest
  | object {room : Nat} {text inner rest : List Char} {ms : List (String × Value)}
      (h : skipBlanks text = '{' :: inner)
      (hm : Members (Reads (readValue room)) true inner ms rest) :
      ValueAt (room + 1) text (.object ms) rest
  | scalar {room : Nat} {text inner rest : List Char} {c : Char} {v : Value}
      (h : skipBlanks text = c :: inner) (hs : ScalarAt (c :: inner) v rest) :
      ValueAt room text v rest

theorem valueAt_of_readValue {room : Nat} {text rest : List Char} {v : Value}
    (h : readValue room text = .ok (v, rest)) : ValueAt room text v rest := by
  unfold readValue at h
  split at h
  · simp at h
  · rename_i c inner hs
    split at h
    · rename_i hc
      subst hc
      cases room with
      | zero => simp at h
      | succ room =>
        obtain ⟨⟨items, r⟩, hi, h⟩ := bind_ok_iff.mp h
        simp only [Except.ok.injEq, Prod.mk.injEq] at h
        obtain ⟨rfl, rfl⟩ := h
        exact .array hs (items_of_readItems hi)
    split at h
    · rename_i hc
      subst hc
      cases room with
      | zero => simp at h
      | succ room =>
        obtain ⟨⟨ms, r⟩, hm, h⟩ := bind_ok_iff.mp h
        simp only [Except.ok.injEq, Prod.mk.injEq] at h
        obtain ⟨rfl, rfl⟩ := h
        obtain ⟨read, hr, rfl⟩ := members_of_foldMembers hm
        simpa using ValueAt.object hs hr
    · exact .scalar hs (readScalar_ok_iff.mp h)

theorem ValueAt.length_scalar {text inner rest : List Char} {c : Char} {v : Value}
    (h : skipBlanks text = c :: inner) (hs : ScalarAt (c :: inner) v rest) :
    rest.length < text.length := by
  have := length_lt_of_skipBlanks h
  have := hs.length_lt
  simp only [List.length_cons] at this
  omega

theorem progress_readValue (room : Nat) : Progress (Reads (readValue room)) := by
  induction room with
  | zero =>
    intro text v rest hr
    cases valueAt_of_readValue hr with
    | scalar h hs => exact ValueAt.length_scalar h hs
  | succ room ih =>
    intro text v rest hr
    cases valueAt_of_readValue hr with
    | array h hi =>
      have := length_lt_of_skipBlanks h
      have := hi.length_lt ih
      omega
    | object h hm =>
      have := length_lt_of_skipBlanks h
      have := hm.length_lt ih
      omega
    | scalar h hs => exact ValueAt.length_scalar h hs

theorem readValue_array {text inner : List Char} (h : skipBlanks text = '[' :: inner) (room : Nat) :
    readValue (room + 1) text =
      (readItems (readValue room) inner.length true inner).map
        fun (items, rest) => (.array items, rest) := by
  rw [readValue, h]
  simp only [if_true]
  cases readItems (readValue room) inner.length true inner <;> rfl

theorem readValue_object {text inner : List Char} (h : skipBlanks text = '{' :: inner)
    (room : Nat) : readValue (room + 1) text =
      (foldMembers (collectMember (readValue room)) inner.length true inner []).map
        fun (ms, rest) => (.object ms.reverse, rest) := by
  rw [readValue, h]
  simp only [Char.reduceEq, if_true, if_false]
  cases foldMembers (collectMember (readValue room)) inner.length true inner [] <;> rfl

theorem readValue_zero {text inner : List Char} {c : Char} (h : skipBlanks text = c :: inner)
    (hc : c = '[' ∨ c = '{') : readValue 0 text = fail .nestingTooDeep := by
  rw [readValue, h]
  rcases hc with rfl | rfl <;> rfl

theorem readValue_scalar {room : Nat} {text inner rest : List Char} {c : Char} {v : Value}
    (h : skipBlanks text = c :: inner) (hs : ScalarAt (c :: inner) v rest) :
    readValue room text = .ok (v, rest) := by
  obtain ⟨d, r, hd, ha, ho, -⟩ := hs.head
  obtain ⟨rfl, -⟩ := List.cons.inj hd
  rw [readValue.eq_def, h]
  simp only [if_neg ha, if_neg ho, readScalar_ok_iff.mpr hs]

theorem readValue_of_valueAt {room : Nat} {text rest : List Char} {v : Value}
    (h : ValueAt room text v rest) : readValue room text = .ok (v, rest) := by
  cases h with
  | array hb hi =>
    rw [readValue_array hb, hi.readItems_ok (progress_readValue _) (Nat.le_refl _), map_ok]
  | object hb hm =>
    rw [readValue_object hb, hm.foldMembers_ok (progress_readValue _) (Nat.le_refl _)]
    simp
  | scalar hb hs => exact readValue_scalar hb hs

theorem head_of_readValue {room : Nat} {text rest : List Char} {v : Value}
    (h : readValue room text = .ok (v, rest)) :
    ∃ c inner, skipBlanks text = c :: inner ∧ c ≠ ']' ∧ c ≠ ',' := by
  cases valueAt_of_readValue h with
  | array hb _ | object hb _ => exact ⟨_, _, hb, by decide⟩
  | scalar hb hs =>
    obtain ⟨c, inner, heq, -, -, hc⟩ := hs.head
    exact ⟨c, inner, hb.trans heq, hc⟩

/-- More text after a value, as long as no number at its end goes on, changes nothing. -/
theorem readValue_append {room : Nat} {text rest more : List Char} {v : Value}
    (h : readValue room text = .ok (v, rest)) (hm : rest = [] → EndsNumber more) :
    readValue room (text ++ more) = .ok (v, rest ++ more) := by
  induction room generalizing text rest v with
  | zero =>
    cases valueAt_of_readValue h with
    | scalar hb hs => exact readValue_scalar (skipBlanks_append hb more) (hs.append hm)
  | succ room ih =>
    have hR : ∀ text v rest, Reads (readValue room) text v rest → rest ≠ [] →
        Reads (readValue room) (text ++ more) v (rest ++ more) :=
      fun _ _ _ hv hne => ih hv fun he => absurd he hne
    cases valueAt_of_readValue h with
    | array hb hi => exact readValue_of_valueAt (.array (skipBlanks_append hb more) (hi.append hR))
    | object hb hms =>
      exact readValue_of_valueAt (.object (skipBlanks_append hb more) (hms.append hR))
    | scalar hb hs => exact readValue_scalar (skipBlanks_append hb more) (hs.append hm)

theorem readValue_skipBlanks (room : Nat) (text : List Char) :
    readValue room (skipBlanks text) = readValue room text := by
  rw [readValue.eq_def, readValue.eq_def, skipBlanks_skipBlanks]

/-! ## Values nobody asks for -/

theorem skipWithin_skipBlanks (count : Nat) (text : List Char) :
    skipWithin count (skipBlanks text) = skipWithin count text := by
  cases count with
  | zero => rfl
  | succ count => rw [skipWithin, skipWithin, skipBlanks_skipBlanks]

theorem ScalarAt.skipWithin {text inner rest : List Char} {c : Char} {v : Value}
    (hs : ScalarAt (c :: inner) v rest) (h : skipBlanks text = c :: inner) {count : Nat}
    (hc : text.length ≤ count) : skipWithin count text = .ok rest := by
  have := length_lt_of_skipBlanks h
  obtain ⟨count, rfl⟩ : ∃ n, count = n + 1 := ⟨count - 1, by omega⟩
  obtain ⟨d, r, hd, ha, ho, -⟩ := hs.head
  obtain ⟨rfl, -⟩ := List.cons.inj hd
  rw [Json.skipWithin, h]
  simp only [if_neg ha, if_neg ho, hs.skip]

theorem Items.skipItems_eq {α : Type} {R : List Char → α → List Char → Prop} {isFirst : Bool}
    {text rest : List Char} {as : List α} (h : Items R isFirst text as rest) (hR : Progress R)
    {skipItem : List Char → Except Error (List Char)}
    (hb : ∀ text, skipItem (skipBlanks text) = skipItem text)
    (hskip : ∀ inner a mid, inner.length ≤ text.length → R inner a mid → skipItem inner = .ok mid)
    {count : Nat} (hc : text.length ≤ count) :
    skipItems skipItem count isFirst text = .ok rest := by
  induction h generalizing count with
  | close h =>
    have := h.length_close
    obtain ⟨count, rfl⟩ : ∃ n, count = n + 1 := ⟨count - 1, by omega⟩
    cases h with
    | close h => simp [skipItems, h]
  | @item isFirst text inner mid rest a as h ha _ ih =>
    have hi := h.length_item
    have hmid := hR _ _ _ ha
    obtain ⟨count, rfl⟩ : ∃ n, count = n + 1 := ⟨count - 1, by omega⟩
    have hrest := ih (fun inner a mid hl => hskip inner a mid (by omega)) (by omega : _ ≤ count)
    have hs := hskip _ _ _ hi ha
    cases h with
    | first h hne => simp [skipItems, h, hne, hs, hrest]
    | next h hn hne =>
      rw [← hn, hb] at hs
      simp [skipItems, h, hs, hrest]

theorem skipKey_of_read {text inner rest : List Char} {key : String}
    (h : skipBlanks text = '"' :: inner) (hk : StringLiteral.read inner = .ok (key, rest)) :
    skipKey text = .ok rest := by
  simp [skipKey, h, StringLiteral.skip_of_read hk]

theorem Members.skipMembers_eq {α : Type} {R : List Char → α → List Char → Prop} {isFirst : Bool}
    {text rest : List Char} {ms : List (String × α)} (h : Members R isFirst text ms rest)
    (hR : Progress R) {skipValue : List Char → Except Error (List Char)}
    (hskip : ∀ inner a mid, inner.length ≤ text.length → R inner a mid → skipValue inner = .ok mid)
    {count : Nat} (hc : text.length ≤ count) :
    skipMembers skipValue count isFirst text = .ok rest := by
  induction h generalizing count with
  | close h =>
    have := h.length_close
    obtain ⟨count, rfl⟩ : ∃ n, count = n + 1 := ⟨count - 1, by omega⟩
    cases h with
    | close h => simp [skipMembers, h]
  | @member isFirst text colon inner mid rest key a ms h hcolon ha _ ih =>
    have hkey := h.length_member
    have hinner := length_lt_of_skipBlanks hcolon
    have hmid := hR _ _ _ ha
    obtain ⟨count, rfl⟩ : ∃ n, count = n + 1 := ⟨count - 1, by omega⟩
    have hrest := ih (fun inner a mid hl => hskip inner a mid (by omega)) (by omega : _ ≤ count)
    have hs := hskip _ _ _ (by omega) ha
    have hcolon := expectColon_ok_iff.mpr hcolon
    cases h with
    | @first _ quoted _ _ h hk =>
      have hk : skipKey ('"' :: quoted) = .ok colon :=
        skipKey_of_read (skipBlanks_cons_of_not rfl quoted) hk
      simp [skipMembers, h, skipMember, hk, hcolon, hs, hrest]
    | next h hm hk =>
      have hk := skipKey_of_read hm hk
      simp [skipMembers, h, skipMember, hk, hcolon, hs, hrest]

theorem skipWithin_of_readValue {room : Nat} {text rest : List Char} {v : Value}
    (h : readValue room text = .ok (v, rest)) {count : Nat} (hc : text.length ≤ count) :
    skipWithin count text = .ok rest := by
  induction room generalizing text rest v count with
  | zero =>
    cases valueAt_of_readValue h with
    | scalar hb hs => exact hs.skipWithin hb hc
  | succ room ih =>
    cases valueAt_of_readValue h with
    | scalar hb hs => exact hs.skipWithin hb hc
    | array hb hi =>
      have := length_lt_of_skipBlanks hb
      obtain ⟨count, rfl⟩ : ∃ n, count = n + 1 := ⟨count - 1, by omega⟩
      rw [skipWithin, hb]
      exact hi.skipItems_eq (progress_readValue room) (skipWithin_skipBlanks count)
        (fun inner a mid hl ha => ih ha (by omega)) (Nat.le_refl _)
    | object hb hm =>
      have := length_lt_of_skipBlanks hb
      obtain ⟨count, rfl⟩ : ∃ n, count = n + 1 := ⟨count - 1, by omega⟩
      rw [skipWithin, hb]
      exact hm.skipMembers_eq (progress_readValue room)
        (fun inner a mid hl ha => ih ha (by omega)) (Nat.le_refl _)

theorem skipValue_of_readValue {room : Nat} {text rest : List Char} {v : Value}
    (h : readValue room text = .ok (v, rest)) : skipValue text = .ok rest :=
  skipWithin_of_readValue h (Nat.le_refl _)

/-! ## Nesting -/

mutual

/-- How many containers lie inside one another. -/
def Value.depth : Value → Nat
  | .array items => Value.depthItems items + 1
  | .object members => Value.depthMembers members + 1
  | .null | .bool _ | .int _ | .float _ | .string _ => 0

def Value.depthItems : List Value → Nat
  | [] => 0
  | item :: items => max item.depth (Value.depthItems items)

def Value.depthMembers : List (String × Value) → Nat
  | [] => 0
  | (_, value) :: members => max value.depth (Value.depthMembers members)

end

theorem Value.depth_le_depthItems {v : Value} {items : List Value} (h : v ∈ items) :
    v.depth ≤ Value.depthItems items := by
  induction items with
  | nil => simp at h
  | cons w items ih =>
    rw [Value.depthItems]
    rcases List.mem_cons.mp h with rfl | h
    · omega
    · have := ih h
      omega

theorem Value.depth_le_depthMembers {key : String} {v : Value} {ms : List (String × Value)}
    (h : (key, v) ∈ ms) : v.depth ≤ Value.depthMembers ms := by
  induction ms with
  | nil => simp at h
  | cons m ms ih =>
    obtain ⟨key', w⟩ := m
    rw [Value.depthMembers]
    rcases List.mem_cons.mp h with heq | h
    · obtain ⟨-, rfl⟩ := Prod.mk.inj heq
      omega
    · have := ih h
      omega

theorem Value.depthItems_le {n : Nat} {items : List Value} (h : ∀ v ∈ items, v.depth ≤ n) :
    Value.depthItems items ≤ n := by
  induction items with
  | nil => exact Nat.zero_le _
  | cons v items ih =>
    exact Nat.max_le.mpr ⟨h v List.mem_cons_self, ih fun w hw => h w (List.mem_cons_of_mem _ hw)⟩

theorem Value.depthMembers_le {n : Nat} {ms : List (String × Value)}
    (h : ∀ m ∈ ms, m.2.depth ≤ n) : Value.depthMembers ms ≤ n := by
  induction ms with
  | nil => exact Nat.zero_le _
  | cons m ms ih =>
    exact Nat.max_le.mpr ⟨h m List.mem_cons_self, ih fun m hm => h m (List.mem_cons_of_mem _ hm)⟩

theorem ScalarAt.depth {text rest : List Char} {v : Value} (h : ScalarAt text v rest) :
    v.depth = 0 := by
  cases h with
  | null | true | false | string => rfl
  | number _ _ hv => obtain ⟨n, rfl⟩ | ⟨bits, rfl⟩ := Literal.value_ok hv <;> rfl

/-- The value, if its containers lie at most `room` deep. -/
def Value.within (room : Nat) (v : Value) : Except Error Value :=
  if v.depth ≤ room then .ok v else fail .nestingTooDeep

theorem mapM_within (room : Nat) (items : List Value) : items.mapM (Value.within room) =
    if Value.depthItems items ≤ room then .ok items else fail .nestingTooDeep := by
  induction items with
  | nil => rfl
  | cons v items ih =>
    simp only [List.mapM_cons, ih, Value.within, Value.depthItems, Nat.max_le]
    by_cases hv : v.depth ≤ room
    · by_cases hi : Value.depthItems items ≤ room
      · simp only [hv, hi, and_self, if_true]
        rfl
      · simp only [hv, hi, and_false, if_true, if_false]
        rfl
    · simp only [hv, false_and, if_false, fail_bind]

/-- A member taken up by reading an object as a whole, last first. -/
def collectWithin (room : Nat) (ms : List (String × Value)) (m : String × Value) :
    Except Error (List (String × Value)) :=
  (m.2.within room).map fun v => (m.1, v) :: ms

theorem foldlM_collectWithin (room : Nat) (ms acc : List (String × Value)) :
    ms.foldlM (collectWithin room) acc =
      if Value.depthMembers ms ≤ room then .ok (ms.reverse ++ acc) else fail .nestingTooDeep := by
  induction ms generalizing acc with
  | nil => rfl
  | cons m ms ih =>
    obtain ⟨key, v⟩ := m
    simp only [List.foldlM_cons, collectWithin, Value.within, Value.depthMembers, Nat.max_le]
    by_cases hv : v.depth ≤ room
    · simp [hv, ih]
    · simp [hv]

/-- What a value read with another room does to the state is what its nesting allows. -/
theorem collectMember_eq {readValue : List Char → Except Error (Value × List Char)}
    {room : Nat} {ms : List (String × Value)} {key : String} {colon inner rest : List Char}
    {v : Value} (hc : skipBlanks colon = ':' :: inner)
    (hv : readValue inner = (v.within room).map (·, rest)) :
    collectMember readValue ms key colon = (collectWithin room ms (key, v)).map (·, rest) := by
  rw [collectMember, expectColon_ok_iff.mpr hc, ok_bind, hv, collectWithin]
  cases v.within room <;> rfl

/-- What can be read with some room is read with any other, or refused for its nesting. -/
theorem readValue_eq_within {big : Nat} {text rest : List Char} {v : Value}
    (h : readValue big text = .ok (v, rest)) (room : Nat) :
    readValue room text = (v.within room).map (·, rest) := by
  induction big generalizing room text v rest with
  | zero =>
    cases valueAt_of_readValue h with
    | scalar hb hs => simp [readValue_scalar hb hs, Value.within, hs.depth]
  | succ big ih =>
    cases valueAt_of_readValue h with
    | scalar hb hs => simp [readValue_scalar hb hs, Value.within, hs.depth]
    | @array _ _ inner _ items hb hi =>
      cases room with
      | zero => rw [readValue_zero hb (.inl rfl), Value.within, if_neg (by simp [Value.depth])]; rfl
      | succ room =>
        rw [readValue_array hb, hi.readItems_eq (progress_readValue big) (Value.within room)
          (fun _ _ _ ha => ih ha room) (Nat.le_refl _), mapM_within, Value.within, Value.depth]
        by_cases hd : Value.depthItems items ≤ room <;> simp [hd]
    | @object _ _ inner _ ms hb hm =>
      cases room with
      | zero => rw [readValue_zero hb (.inr rfl), Value.within, if_neg (by simp [Value.depth])]; rfl
      | succ room =>
        rw [readValue_object hb, hm.foldMembers_eq (progress_readValue big) (collectWithin room)
          (fun _ _ _ _ _ _ hc ha => collectMember_eq hc (ih ha room)) (Nat.le_refl _),
          foldlM_collectWithin, Value.within, Value.depth]
        by_cases hd : Value.depthMembers ms ≤ room <;> simp [hd]

end IcuMessage.Json
