/-
What a reader gets, it gets from the piece of the text that it leaves behind:
the same piece before any other text gives the same (`Takes`). Another reader
that differs from the first in how parts are read, or in how much room it has,
takes the piece as well, if its parts do so for those of the first (`Carries`).
-/
import Mathlib.Data.List.Forall2
import IcuMessage.Proofs.Json.Accepted
import IcuMessage.Proofs.Json.Streaming
import IcuMessage.Proofs.Json.WrittenValues

namespace IcuMessage.Json

variable {α β γ δ σ τ : Type}

/-- The reader gets `a` from the piece, whatever comes after it that no number goes on into. -/
def Takes (read : List Char → Except Error (α × List Char)) (piece : List Char) (a : α) : Prop :=
  piece ≠ [] ∧ ∀ more, EndsNumber more → read (piece ++ more) = .ok (a, more)

/-- What one reader gets from a piece of text, another takes it for something related. -/
def Carries (R : α → β → Prop) (read : List Char → Except Error (α × List Char))
    (read' : List Char → Except Error (β × List Char)) : Prop :=
  ∀ ⦃text a rest⦄, read text = .ok (a, rest) →
    ∃ piece b, text = piece ++ rest ∧ R a b ∧ Takes read' piece b

/-! ## Blanks and separators -/

theorem exists_blanks {text rest : List Char} {c : Char} (h : skipBlanks text = c :: rest) :
    ∃ blanks, Blank blanks ∧ text = blanks ++ c :: rest := by
  refine ⟨text.takeWhile isBlank, fun d hd => List.mem_takeWhile_imp hd, ?_⟩
  rw [← h]
  exact List.takeWhile_append_dropWhile.symm

theorem blank_of_skipBlanks {text : List Char} (h : skipBlanks text = []) : Blank text :=
  List.dropWhile_eq_nil_iff.mp h

theorem Blank.skip_cons {blanks : List Char} (h : Blank blanks) {c : Char}
    (hc : isBlank c = false) (rest : List Char) : skipBlanks (blanks ++ c :: rest) = c :: rest :=
  (skipBlanks_append_of_nil h.skip _).trans (skipBlanks_cons_of_not hc rest)

theorem endsNumber_of_skipBlanks {text rest : List Char} {c : Char}
    (h : skipBlanks text = c :: rest) (hc : c = ',' ∨ c = ']' ∨ c = '}') : EndsNumber text := by
  obtain ⟨blanks, hb, rfl⟩ := exists_blanks h
  exact hb.endsNumber (endsNumber_cons hc rest)

theorem ItemAt.close_piece {isFirst : Bool} {text rest : List Char}
    (h : ItemAt isFirst text (.close rest)) : ∃ piece, text = piece ++ rest ∧ piece ≠ [] ∧
      ∀ more, ItemAt isFirst (piece ++ more) (.close more) := by
  cases h with
  | close h =>
    obtain ⟨blanks, hb, rfl⟩ := exists_blanks h
    refine ⟨blanks ++ [']'], by simp, by simp, fun more => .close ?_⟩
    rw [List.append_assoc]
    exact hb.skip_cons (by decide) more

theorem ItemAt.item_piece {isFirst : Bool} {text inner : List Char}
    (h : ItemAt isFirst text (.item inner)) : ∃ piece, text = piece ++ inner ∧
      ∀ more, more.head? = inner.head? → ItemAt isFirst (piece ++ more) (.item more) := by
  cases h with
  | @first _ rest c h hc =>
    obtain ⟨blanks, hb, rfl⟩ := exists_blanks h
    refine ⟨blanks, rfl, fun more hm => ?_⟩
    obtain ⟨more, rfl⟩ := List.head?_eq_some_iff.mp hm
    exact .first (hb.skip_cons (not_isBlank_of_skipBlanks h) more) hc
  | @next _ _ rest c h hi hc =>
    obtain ⟨blanks, hb, rfl⟩ := exists_blanks h
    obtain ⟨blanks', hb', rfl⟩ := exists_blanks hi
    refine ⟨blanks ++ ',' :: blanks', by simp, fun more hm => ?_⟩
    obtain ⟨more, rfl⟩ := List.head?_eq_some_iff.mp hm
    rw [List.append_assoc, List.cons_append]
    exact .next (hb.skip_cons (by decide) _) (hb'.skip_cons (not_isBlank_of_skipBlanks hi) more) hc

theorem ItemAt.endsNumber {text : List Char} {next : NextItem} (h : ItemAt false text next) :
    EndsNumber text := by
  cases h with
  | close h => exact endsNumber_of_skipBlanks h (.inr (.inl rfl))
  | next h => exact endsNumber_of_skipBlanks h (.inl rfl)

theorem MemberAt.close_piece {isFirst : Bool} {text rest : List Char}
    (h : MemberAt isFirst text (.close rest)) : ∃ piece, text = piece ++ rest ∧ piece ≠ [] ∧
      ∀ more, MemberAt isFirst (piece ++ more) (.close more) := by
  cases h with
  | close h =>
    obtain ⟨blanks, hb, rfl⟩ := exists_blanks h
    refine ⟨blanks ++ ['}'], by simp, by simp, fun more => .close ?_⟩
    rw [List.append_assoc]
    exact hb.skip_cons (by decide) more

theorem MemberAt.member_piece {isFirst : Bool} {text rest : List Char} {key : String}
    (h : MemberAt isFirst text (.member key rest)) : ∃ piece, text = piece ++ rest ∧ piece ≠ [] ∧
      ∀ more, MemberAt isFirst (piece ++ more) (.member key more) := by
  cases h with
  | first h hk =>
    obtain ⟨blanks, hb, rfl⟩ := exists_blanks h
    obtain ⟨literal, rfl, hliteral⟩ := StringLiteral.read_piece hk
    refine ⟨blanks ++ '"' :: literal, by simp, by simp, fun more => ?_⟩
    rw [List.append_assoc, List.cons_append]
    exact .first (hb.skip_cons (by decide) _) (hliteral more)
  | next h hm hk =>
    obtain ⟨blanks, hb, rfl⟩ := exists_blanks h
    obtain ⟨blanks', hb', rfl⟩ := exists_blanks hm
    obtain ⟨literal, rfl, hliteral⟩ := StringLiteral.read_piece hk
    refine ⟨blanks ++ ',' :: (blanks' ++ '"' :: literal), by simp, by simp, fun more => ?_⟩
    rw [List.append_assoc, List.cons_append, List.append_assoc, List.cons_append]
    exact .next (hb.skip_cons (by decide) _) (hb'.skip_cons (by decide) _) (hliteral more)

theorem MemberAt.endsNumber {text : List Char} {next : NextMember}
    (h : MemberAt false text next) : EndsNumber text := by
  cases h with
  | close h => exact endsNumber_of_skipBlanks h (.inr (.inr rfl))
  | next h => exact endsNumber_of_skipBlanks h (.inl rfl)

theorem expectColon_piece {text rest : List Char} (h : expectColon text = .ok rest) :
    ∃ piece, text = piece ++ rest ∧ piece ≠ [] ∧
      ∀ more, expectColon (piece ++ more) = .ok more := by
  obtain ⟨blanks, hb, rfl⟩ := exists_blanks (expectColon_ok_iff.mp h)
  refine ⟨blanks ++ [':'], by simp, by simp, fun more => expectColon_ok_iff.mpr ?_⟩
  rw [List.append_assoc]
  exact hb.skip_cons (by decide) more

/-! ## Items and members -/

section

variable {R : α → β → Prop} {read : List Char → Except Error (α × List Char)}
  {read' : List Char → Except Error (β × List Char)}

/-- Something read after a colon. -/
theorem Carries.afterColon (h : Carries R read read') {S : γ → δ → Prop} {f : α → γ} {g : β → δ}
    (hfg : ∀ a b, R a b → S (f a) (g b)) :
    Carries S
      (fun text => do
        let rest ← expectColon text
        let (a, rest) ← read rest
        .ok (f a, rest))
      (fun text => do
        let rest ← expectColon text
        let (b, rest) ← read' rest
        .ok (g b, rest)) := by
  intro text c rest hc
  obtain ⟨inner, hexpect, hread⟩ := bind_ok_iff.mp hc
  obtain ⟨⟨a, mid⟩, ha, heq⟩ := bind_ok_iff.mp hread
  obtain ⟨rfl, rfl⟩ : f a = c ∧ mid = rest := by simpa using heq
  obtain ⟨colon, rfl, hne, hcolon⟩ := expectColon_piece hexpect
  obtain ⟨piece, b, rfl, hab, -, hpiece⟩ := h ha
  refine ⟨colon ++ piece, g b, by simp, hfg a b hab, by simp [hne], fun more hm => ?_⟩
  simp only [List.append_assoc, hcolon, ok_bind, hpiece more hm]

theorem endsNumber_of_readItems {count : Nat} {text : List Char} {x : List α × List Char}
    (h : readItems read count false text = .ok x) : EndsNumber text := by
  cases count with
  | zero => simp [readItems] at h
  | succ count =>
    obtain ⟨next, hn, -⟩ := bind_ok_iff.mp h
    exact (nextItem_ok_iff.mp hn).endsNumber

/-- The same items are read from their piece with any count that covers it. -/
theorem readItems_piece (hR : Carries R read read') {count : Nat} {isFirst : Bool}
    {text rest : List Char} {as : List α} (h : readItems read count isFirst text = .ok (as, rest)) :
    ∃ piece bs, text = piece ++ rest ∧ piece ≠ [] ∧ List.Forall₂ R as bs ∧
      ∀ more count', piece.length ≤ count' →
        readItems read' count' isFirst (piece ++ more) = .ok (bs, more) := by
  induction count generalizing isFirst text as with
  | zero => simp [readItems] at h
  | succ count ih =>
    obtain ⟨next, hn, h⟩ := bind_ok_iff.mp h
    rw [nextItem_ok_iff] at hn
    cases next with
    | close r =>
      obtain ⟨rfl, rfl⟩ : [] = as ∧ r = rest := by simpa using h
      obtain ⟨piece, rfl, hne, hpiece⟩ := hn.close_piece
      refine ⟨piece, [], rfl, hne, .nil, fun more count' hc => ?_⟩
      have hpos := List.length_pos_iff.mpr hne
      obtain ⟨count', rfl⟩ : ∃ n, count' = n + 1 := ⟨count' - 1, by omega⟩
      rw [readItems, nextItem_ok_iff.mpr (hpiece more)]
      rfl
    | item inner =>
      obtain ⟨⟨a, mid⟩, ha, h⟩ := bind_ok_iff.mp h
      obtain ⟨⟨as', r⟩, has, h⟩ := bind_ok_iff.mp h
      obtain ⟨rfl, rfl⟩ : a :: as' = as ∧ r = rest := by simpa using h
      obtain ⟨before, rfl, hbefore⟩ := hn.item_piece
      obtain ⟨item, b, rfl, hab, hne, hitem⟩ := hR ha
      obtain ⟨piece, bs, rfl, -, hbs, hpiece⟩ := ih has
      refine ⟨before ++ (item ++ piece), b :: bs, by simp, by simp [hne], .cons hab hbs,
        fun more count' hc => ?_⟩
      have hpos := List.length_pos_iff.mpr hne
      simp only [List.length_append] at hc
      obtain ⟨count', rfl⟩ : ∃ n, count' = n + 1 := ⟨count' - 1, by omega⟩
      have hrest := hpiece more count' (by omega)
      have hhead : (item ++ (piece ++ more)).head? = (item ++ (piece ++ r)).head? := by
        obtain ⟨c, item, rfl⟩ := List.exists_cons_of_ne_nil hne
        rfl
      simp only [List.append_assoc, readItems, nextItem_ok_iff.mpr (hbefore _ hhead), ok_bind,
        hitem _ (endsNumber_of_readItems hrest), hrest]

theorem endsNumber_of_foldMembers
    {readMember : σ → String → List Char → Except Error (σ × List Char)} {count : Nat}
    {text : List Char} {s : σ} {x : σ × List Char}
    (h : foldMembers readMember count false text s = .ok x) : EndsNumber text := by
  cases count with
  | zero => simp [foldMembers] at h
  | succ count =>
    obtain ⟨next, hn, -⟩ := bind_ok_iff.mp h
    exact (nextMember_ok_iff.mp hn).endsNumber

theorem foldMembers_piece {S : σ → τ → Prop}
    {readMember : σ → String → List Char → Except Error (σ × List Char)}
    {readMember' : τ → String → List Char → Except Error (τ × List Char)}
    (hS : ∀ s t, S s t → ∀ key, Carries S (readMember s key) (readMember' t key)) {count : Nat}
    {isFirst : Bool} {text rest : List Char} {s s' : σ} {t : τ} (hst : S s t)
    (h : foldMembers readMember count isFirst text s = .ok (s', rest)) :
    ∃ piece t', text = piece ++ rest ∧ piece ≠ [] ∧ S s' t' ∧ ∀ more count', piece.length ≤ count' →
      foldMembers readMember' count' isFirst (piece ++ more) t = .ok (t', more) := by
  induction count generalizing isFirst text s t with
  | zero => simp [foldMembers] at h
  | succ count ih =>
    obtain ⟨next, hn, h⟩ := bind_ok_iff.mp h
    rw [nextMember_ok_iff] at hn
    cases next with
    | close r =>
      obtain ⟨rfl, rfl⟩ : s = s' ∧ r = rest := by simpa using h
      obtain ⟨piece, rfl, hne, hpiece⟩ := hn.close_piece
      refine ⟨piece, t, rfl, hne, hst, fun more count' hc => ?_⟩
      have hpos := List.length_pos_iff.mpr hne
      obtain ⟨count', rfl⟩ : ∃ n, count' = n + 1 := ⟨count' - 1, by omega⟩
      rw [foldMembers, nextMember_ok_iff.mpr (hpiece more)]
      rfl
    | member key colon =>
      obtain ⟨⟨u, mid⟩, hm, hms⟩ := bind_ok_iff.mp h
      obtain ⟨before, rfl, hne, hbefore⟩ := hn.member_piece
      obtain ⟨member, v, rfl, huv, -, hmember⟩ := hS s t hst key hm
      obtain ⟨piece, t', rfl, -, hst', hpiece⟩ := ih huv hms
      refine ⟨before ++ (member ++ piece), t', by simp, by simp [hne], hst',
        fun more count' hc => ?_⟩
      have hpos := List.length_pos_iff.mpr hne
      simp only [List.length_append] at hc
      obtain ⟨count', rfl⟩ : ∃ n, count' = n + 1 := ⟨count' - 1, by omega⟩
      have hrest := hpiece more count' (by omega)
      simp only [List.append_assoc, foldMembers, nextMember_ok_iff.mpr (hbefore _), ok_bind,
        hmember _ (endsNumber_of_foldMembers hrest), hrest]

end

/-! ## Values -/

theorem takes_scalar (room : Nat) {text scalar rest : List Char} {v : Value}
    (hb : skipBlanks text = scalar) (hs : ScalarAt scalar v rest) :
    ∃ piece, text = piece ++ rest ∧ Takes (readValue room) piece v := by
  obtain ⟨piece, rfl, hne, hpiece⟩ := hs.piece
  obtain ⟨c, piece, rfl⟩ := List.exists_cons_of_ne_nil hne
  obtain ⟨blanks, hblank, rfl⟩ := exists_blanks hb
  refine ⟨blanks ++ c :: piece, by simp, by simp, fun more hm => ?_⟩
  rw [List.append_assoc]
  exact readValue_scalar (hblank.skip_cons (not_isBlank_of_skipBlanks hb) _) (hpiece more hm)

/-- A value is read from its piece of the text, with more room as well. -/
theorem carries_readValue {room room' : Nat} (h : room ≤ room') :
    Carries Eq (readValue room) (readValue room') := by
  induction room generalizing room' with
  | zero =>
    intro text v rest hv
    cases valueAt_of_readValue hv with
    | scalar hb hs =>
      obtain ⟨piece, heq, hpiece⟩ := takes_scalar room' hb hs
      exact ⟨piece, v, heq, rfl, hpiece⟩
  | succ room ih =>
    obtain ⟨room', rfl⟩ : ∃ n, room' = n + 1 := ⟨room' - 1, by omega⟩
    have ih := ih (Nat.le_of_succ_le_succ h)
    intro text v rest hv
    cases valueAt_of_readValue hv with
    | scalar hb hs =>
      obtain ⟨piece, heq, hpiece⟩ := takes_scalar (room' + 1) hb hs
      exact ⟨piece, v, heq, rfl, hpiece⟩
    | array hb _ =>
      rw [readValue_array hb] at hv
      obtain ⟨⟨items, mid⟩, hi, heq⟩ := map_ok_iff.mp hv
      obtain ⟨⟨⟩, rfl⟩ := Prod.mk.inj heq
      obtain ⟨piece, bs, rfl, -, hbs, hpiece⟩ := readItems_piece ih hi
      rw [List.forall₂_eq_eq_eq] at hbs
      subst hbs
      obtain ⟨blanks, hblank, rfl⟩ := exists_blanks hb
      refine ⟨blanks ++ '[' :: piece, _, by simp, rfl, by simp, fun more _ => ?_⟩
      rw [List.append_assoc, List.cons_append, readValue_array (hblank.skip_cons (by decide) _),
        hpiece more _ (by simp), map_ok]
    | object hb _ =>
      rw [readValue_object hb] at hv
      obtain ⟨⟨ms, mid⟩, hm, heq⟩ := map_ok_iff.mp hv
      obtain ⟨⟨⟩, rfl⟩ := Prod.mk.inj heq
      have hcollect : ∀ s t, s = t → ∀ key, Carries Eq (collectMember (readValue room) s key)
          (collectMember (readValue room') t key) := by
        rintro s _ rfl key
        exact ih.afterColon fun v _ hv => congrArg (fun v => (key, v) :: s) hv
      obtain ⟨piece, ms', rfl, -, rfl, hpiece⟩ := foldMembers_piece hcollect rfl hm
      obtain ⟨blanks, hblank, rfl⟩ := exists_blanks hb
      refine ⟨blanks ++ '{' :: piece, _, by simp, rfl, by simp, fun more _ => ?_⟩
      rw [List.append_assoc, List.cons_append, readValue_object (hblank.skip_cons (by decide) _),
        hpiece more _ (by simp), map_ok]

/-! ## Values nobody asks for -/

/-- Passing over items or members, by the character that ends them. -/
def skipParts (close : Char) (atEnd atSeparator : SyntaxError)
    (skipPart : List Char → Except Error (List Char)) :
    Nat → Bool → List Char → Except Error (List Char)
  | 0, _, _ => fail atEnd
  | count + 1, isFirst, text =>
    match skipBlanks text with
    | [] => fail atEnd
    | c :: rest =>
      if c = close then .ok rest
      else if isFirst then do
        let rest ← skipPart (c :: rest)
        skipParts close atEnd atSeparator skipPart count false rest
      else if c = ',' then do
        let rest ← skipPart rest
        skipParts close atEnd atSeparator skipPart count false rest
      else fail atSeparator

theorem skipItems_eq (skipItem : List Char → Except Error (List Char)) (count : Nat)
    (isFirst : Bool) (text : List Char) : skipItems skipItem count isFirst text =
      skipParts ']' .endInList .expectedListSeparator skipItem count isFirst text := by
  induction count generalizing isFirst text with
  | zero => rfl
  | succ count ih =>
    rw [skipItems, skipParts]
    cases skipBlanks text with
    | nil => rfl
    | cons c rest => simp only [ih]

theorem skipMembers_eq (skipValue : List Char → Except Error (List Char)) (count : Nat)
    (isFirst : Bool) (text : List Char) : skipMembers skipValue count isFirst text =
      skipParts '}' .endInObject .expectedObjectSeparator (skipMember skipValue) count isFirst
        text := by
  induction count generalizing isFirst text with
  | zero => rfl
  | succ count ih =>
    rw [skipMembers, skipParts]
    cases skipBlanks text with
    | nil => rfl
    | cons c rest => simp only [ih]

/-- Where the first passes over a piece that is no longer than `bound`, so does the second. -/
def SkipsWithin (bound : Nat) (skip skip' : List Char → Except Error (List Char)) : Prop :=
  ∀ ⦃text rest⦄, skip text = .ok rest → ∃ piece, text = piece ++ rest ∧ piece ≠ [] ∧
    (piece.length ≤ bound → ∀ more, EndsNumber more → skip' (piece ++ more) = .ok more)

section

variable {bound : Nat} {skip skip' : List Char → Except Error (List Char)}

theorem skipKey_piece {text rest : List Char} (h : skipKey text = .ok rest) :
    ∃ piece, text = piece ++ rest ∧ piece ≠ [] ∧ ∀ more, skipKey (piece ++ more) = .ok more := by
  unfold skipKey at h
  split at h
  · simp at h
  · rename_i c inner hb
    split at h
    · rename_i hc
      subst hc
      obtain ⟨blanks, hblanks, rfl⟩ := exists_blanks hb
      obtain ⟨literal, rfl, hliteral⟩ := StringLiteral.skip_piece h
      refine ⟨blanks ++ '"' :: literal, by simp, by simp, fun more => ?_⟩
      rw [List.append_assoc, List.cons_append, skipKey, hblanks.skip_cons (by decide)]
      exact (if_pos rfl).trans (hliteral more)
    · simp at h

theorem SkipsWithin.member (h : SkipsWithin bound skip skip') :
    SkipsWithin bound (skipMember skip) (skipMember skip') := by
  intro text rest hs
  obtain ⟨colon, hk, hcolon⟩ := bind_ok_iff.mp hs
  obtain ⟨value, hc, hv⟩ := bind_ok_iff.mp hcolon
  obtain ⟨key, rfl, hne, hkey⟩ := skipKey_piece hk
  obtain ⟨sign, rfl, -, hsign⟩ := expectColon_piece hc
  obtain ⟨piece, rfl, -, hpiece⟩ := h hv
  refine ⟨key ++ (sign ++ piece), by simp, by simp [hne], fun hle more hm => ?_⟩
  simp only [List.length_append] at hle
  simp only [List.append_assoc, skipMember, hkey, hsign, ok_bind, hpiece (by omega) more hm]

theorem endsNumber_of_skipParts {close : Char} {atEnd atSeparator : SyntaxError}
    (hclose : close = ']' ∨ close = '}') {count : Nat} {text rest : List Char}
    (h : skipParts close atEnd atSeparator skip count false text = .ok rest) : EndsNumber text := by
  cases count with
  | zero => simp [skipParts] at h
  | succ count =>
    simp only [skipParts] at h
    split at h
    · simp at h
    · rename_i c inner hs
      split at h
      · rename_i hc
        exact endsNumber_of_skipBlanks hs (.inr (hc ▸ hclose))
      · simp only [Bool.false_eq_true, if_false] at h
        split at h
        · rename_i hc
          exact endsNumber_of_skipBlanks hs (.inl hc)
        · simp at h

theorem skipParts_piece (h : SkipsWithin bound skip skip') {close : Char}
    {atEnd atSeparator : SyntaxError} (hclose : close = ']' ∨ close = '}') {count : Nat}
    {isFirst : Bool} {text rest : List Char}
    (hs : skipParts close atEnd atSeparator skip count isFirst text = .ok rest) :
    ∃ piece, text = piece ++ rest ∧ piece ≠ [] ∧ ∀ more count', piece.length ≤ count' →
      piece.length ≤ bound →
      skipParts close atEnd atSeparator skip' count' isFirst (piece ++ more) = .ok more := by
  have hblank : isBlank close = false := by rcases hclose with rfl | rfl <;> decide
  induction count generalizing isFirst text with
  | zero => simp [skipParts] at hs
  | succ count ih =>
    simp only [skipParts] at hs
    split at hs
    · simp at hs
    rename_i c inner hb
    obtain ⟨blanks, hblanks, rfl⟩ := exists_blanks hb
    split at hs
    · rename_i hc
      obtain rfl : inner = rest := by simpa using hs
      refine ⟨blanks ++ [c], by simp, by simp, fun more count' hle _ => ?_⟩
      simp only [List.length_append, List.length_singleton] at hle
      obtain ⟨count', rfl⟩ : ∃ n, count' = n + 1 := ⟨count' - 1, by omega⟩
      rw [List.append_assoc, List.singleton_append, skipParts,
        hblanks.skip_cons (hc ▸ hblank)]
      exact if_pos hc
    rename_i hc
    split at hs
    · rename_i hf
      obtain ⟨mid, hmid, hrest⟩ := bind_ok_iff.mp hs
      obtain ⟨part, heq, hne, hpart⟩ := h hmid
      obtain ⟨piece, rfl, -, hpiece⟩ := ih hrest
      obtain ⟨d, part, rfl⟩ := List.exists_cons_of_ne_nil hne
      obtain ⟨rfl, rfl⟩ : c = d ∧ inner = part ++ (piece ++ rest) := List.cons.inj heq
      refine ⟨blanks ++ (c :: part ++ piece), by simp, by simp, fun more count' hle hbound => ?_⟩
      simp only [List.length_append, List.length_cons] at hle hbound
      obtain ⟨count', rfl⟩ : ∃ n, count' = n + 1 := ⟨count' - 1, by omega⟩
      have hmore := hpiece more count' (by omega) (by omega)
      have hpart := hpart (by simp only [List.length_cons]; omega) (piece ++ more)
        (endsNumber_of_skipParts hclose hmore)
      rw [List.append_assoc, List.append_assoc, List.cons_append, skipParts,
        hblanks.skip_cons (not_isBlank_of_skipBlanks hb)]
      simp only [if_neg hc, if_pos hf]
      rw [← List.cons_append, hpart, ok_bind, hmore]
    rename_i hf
    split at hs
    · rename_i hcomma
      obtain ⟨mid, hmid, hrest⟩ := bind_ok_iff.mp hs
      obtain ⟨part, rfl, hne, hpart⟩ := h hmid
      obtain ⟨piece, rfl, -, hpiece⟩ := ih hrest
      refine ⟨blanks ++ (c :: (part ++ piece)), by simp, by simp, fun more count' hle hbound => ?_⟩
      simp only [List.length_append, List.length_cons] at hle hbound
      obtain ⟨count', rfl⟩ : ∃ n, count' = n + 1 := ⟨count' - 1, by omega⟩
      have hmore := hpiece more count' (by omega) (by omega)
      have hpart := hpart (by omega) (piece ++ more) (endsNumber_of_skipParts hclose hmore)
      rw [List.append_assoc, List.cons_append, skipParts,
        hblanks.skip_cons (not_isBlank_of_skipBlanks hb)]
      simp only [if_neg hc, if_neg hf, if_pos hcomma, List.append_assoc, hpart, ok_bind, hmore]
    · simp at hs

end

theorem skipScalar_piece {text rest : List Char} (h : skipScalar text = .ok rest) :
    ∃ piece, text = piece ++ rest ∧ piece ≠ [] ∧
      ∀ more, EndsNumber more → skipScalar (piece ++ more) = .ok more := by
  cases text with
  | nil => simp [skipScalar] at h
  | cons c inner =>
    rw [skipScalar] at h
    split at h
    · rename_i hc
      obtain rfl := expectWord_ok_iff.mp h
      exact ⟨c :: "ull".toList, rfl, by simp, fun more _ => by simp [skipScalar, hc, expectWord]⟩
    split at h
    · rename_i hn hc
      obtain rfl := expectWord_ok_iff.mp h
      exact ⟨c :: "rue".toList, rfl, by simp, fun more _ => by simp [skipScalar, hc, expectWord]⟩
    split at h
    · rename_i hn ht hc
      obtain rfl := expectWord_ok_iff.mp h
      exact ⟨c :: "alse".toList, rfl, by simp, fun more _ => by simp [skipScalar, hc, expectWord]⟩
    split at h
    · rename_i hn ht hf hc
      obtain ⟨piece, rfl, hpiece⟩ := StringLiteral.skip_piece h
      exact ⟨c :: piece, rfl, by simp, fun more _ => by simp [skipScalar, hc, hpiece]⟩
    split at h
    · rename_i hn ht hf hq hc
      obtain ⟨⟨l, mid⟩, hl, heq⟩ := bind_ok_iff.mp h
      obtain rfl : mid = rest := by simpa using heq
      obtain ⟨piece, heq, hne, hpiece⟩ := Literal.scan_piece hl .invalidNumber
      obtain ⟨d, piece, rfl⟩ := List.exists_cons_of_ne_nil hne
      obtain ⟨rfl, rfl⟩ : c = d ∧ inner = piece ++ mid := List.cons.inj heq
      refine ⟨c :: piece, rfl, hne, fun more hm => ?_⟩
      have hscan := hpiece more hm
      rw [List.cons_append] at hscan ⊢
      simp only [skipScalar, if_neg hn, if_neg ht, if_neg hf, if_neg hq, if_pos hc, hscan, ok_bind]
    · simp at h

theorem skipsWithin_skipWithin (count count' : Nat) :
    SkipsWithin count' (skipWithin count) (skipWithin count') := by
  induction count generalizing count' with
  | zero => intro text rest h; simp [skipWithin] at h
  | succ count ih =>
    intro text rest h
    simp only [skipWithin] at h
    split at h
    · simp at h
    rename_i c inner hb
    obtain ⟨blanks, hblanks, rfl⟩ := exists_blanks hb
    have hskip : ∀ more, skipBlanks (blanks ++ c :: more) = c :: more :=
      hblanks.skip_cons (not_isBlank_of_skipBlanks hb)
    have hih := ih (count' - 1)
    split at h
    · rename_i hc
      rw [skipItems_eq] at h
      obtain ⟨piece, rfl, -, hpiece⟩ := skipParts_piece hih (.inl rfl) h
      refine ⟨blanks ++ c :: piece, by simp, by simp, fun hle more hm => ?_⟩
      simp only [List.length_append, List.length_cons] at hle
      obtain ⟨count', rfl⟩ : ∃ n, count' = n + 1 := ⟨count' - 1, by omega⟩
      rw [List.append_assoc, List.cons_append, skipWithin, hskip]
      simp only [if_pos hc, skipItems_eq]
      exact hpiece more _ (by simp) (by omega)
    split at h
    · rename_i hn hc
      rw [skipMembers_eq] at h
      obtain ⟨piece, rfl, -, hpiece⟩ := skipParts_piece hih.member (.inr rfl) h
      refine ⟨blanks ++ c :: piece, by simp, by simp, fun hle more hm => ?_⟩
      simp only [List.length_append, List.length_cons] at hle
      obtain ⟨count', rfl⟩ : ∃ n, count' = n + 1 := ⟨count' - 1, by omega⟩
      rw [List.append_assoc, List.cons_append, skipWithin, hskip]
      simp only [if_neg hn, if_pos hc, skipMembers_eq]
      exact hpiece more _ (by simp) (by omega)
    · rename_i hn hc
      obtain ⟨piece, heq, hne, hpiece⟩ := skipScalar_piece h
      obtain ⟨d, piece, rfl⟩ := List.exists_cons_of_ne_nil hne
      obtain ⟨rfl, rfl⟩ : c = d ∧ inner = piece ++ rest := List.cons.inj heq
      refine ⟨blanks ++ c :: piece, by simp, by simp, fun hle more hm => ?_⟩
      simp only [List.length_append, List.length_cons] at hle
      obtain ⟨count', rfl⟩ : ∃ n, count' = n + 1 := ⟨count' - 1, by omega⟩
      rw [List.append_assoc, List.cons_append, skipWithin, hskip]
      simp only [if_neg hn, if_neg hc]
      exact hpiece more hm

theorem skipValue_piece {text rest : List Char} (h : skipValue text = .ok rest) :
    ∃ piece, text = piece ++ rest ∧ piece ≠ [] ∧
      ∀ more, EndsNumber more → skipValue (piece ++ more) = .ok more := by
  obtain ⟨piece, heq, hne, -⟩ := skipsWithin_skipWithin text.length 0 h
  refine ⟨piece, heq, hne, fun more hm => ?_⟩
  -- Which piece it is does not depend on the count.
  obtain ⟨piece', heq', -, hpiece⟩ := skipsWithin_skipWithin text.length (piece ++ more).length h
  obtain rfl : piece' = piece := List.append_cancel_right (heq'.symm.trans heq)
  exact hpiece (by simp) more hm

end IcuMessage.Json
