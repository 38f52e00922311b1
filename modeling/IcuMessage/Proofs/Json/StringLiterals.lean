/-
String literals: where one has been read, more text after it changes nothing
(`read_append`), nor does other text (`read_piece`), passing over it ends at the
same place (`skip_of_read`), and a written string is read back (`read_write`).
-/
import IcuMessage.Proofs.Json.Steps

namespace IcuMessage.Json.StringLiteral

/-! ## Escapes -/

theorem readHex_ok_iff {text rest : List Char} {n : Nat} :
    readHex text = .ok (n, rest) ↔ ∃ a b c d a' b' c' d',
      text = a :: b :: c :: d :: rest ∧ hexDigit? a = some a' ∧ hexDigit? b = some b' ∧
      hexDigit? c = some c' ∧ hexDigit? d = some d' ∧ n = ((a' * 16 + b') * 16 + c') * 16 + d' := by
  constructor
  · intro h
    unfold readHex at h
    split at h
    · split at h
      · simp only [Except.ok.injEq, Prod.mk.injEq] at h
        obtain ⟨rfl, rfl⟩ := h
        rename_i a b c d rest _ _ _ _ a' b' c' d' ha hb hc hd
        exact ⟨a, b, c, d, a', b', c', d', rfl, ha, hb, hc, hd, rfl⟩
      · simp at h
    · simp at h
  · rintro ⟨a, b, c, d, a', b', c', d', rfl, ha, hb, hc, hd, rfl⟩
    simp [readHex, ha, hb, hc, hd]

theorem readHex_append {text rest : List Char} {n : Nat} (h : readHex text = .ok (n, rest))
    (more : List Char) : readHex (text ++ more) = .ok (n, rest ++ more) := by
  obtain ⟨a, b, c, d, a', b', c', d', rfl, ha, hb, hc, hd, rfl⟩ := readHex_ok_iff.mp h
  simp [readHex, ha, hb, hc, hd]

theorem length_of_readHex {text rest : List Char} {n : Nat} (h : readHex text = .ok (n, rest)) :
    rest.length < text.length := by
  obtain ⟨a, b, c, d, a', b', c', d', rfl, -⟩ := readHex_ok_iff.mp h
  simp only [List.length_cons]
  omega

theorem readTrailing_ok {leading : Nat} {text rest : List Char} {c : Char}
    (h : readTrailing leading text = .ok (c, rest)) : ∃ inner unit, text = '\\' :: 'u' :: inner ∧
      readHex inner = .ok (unit, rest) ∧ isTrailingSurrogate unit = true ∧
      c = ofSurrogates leading unit := by
  unfold readTrailing at h
  split at h
  · rename_i inner
    obtain ⟨⟨unit, rest'⟩, hu, h⟩ := bind_ok_iff.mp h
    dsimp only at h
    split at h
    · rename_i ht
      simp only [Except.ok.injEq, Prod.mk.injEq] at h
      obtain ⟨rfl, rfl⟩ := h
      exact ⟨inner, unit, rfl, hu, ht, rfl⟩
    · simp at h
  · simp at h
  · simp at h
  · simp at h

theorem readTrailing_pair (leading : Nat) (inner : List Char) :
    readTrailing leading ('\\' :: 'u' :: inner) = (do
      let (unit, rest) ← readHex inner
      if isTrailingSurrogate unit then .ok (ofSurrogates leading unit, rest)
      else fail .loneSurrogate) := rfl

theorem readTrailing_append {leading : Nat} {text rest : List Char} {c : Char}
    (h : readTrailing leading text = .ok (c, rest)) (more : List Char) :
    readTrailing leading (text ++ more) = .ok (c, rest ++ more) := by
  obtain ⟨inner, unit, rfl, hu, ht, hc⟩ := readTrailing_ok h
  rw [List.cons_append, List.cons_append, readTrailing_pair, readHex_append hu, hc]
  simp only [ok_bind, ht, if_true]

/-- A successful escape was four digits, two times four, or a short one. -/
inductive Escaped : List Char → Char → List Char → Prop
  | unit {inner rest : List Char} {unit : Nat} (hu : readHex inner = .ok (unit, rest))
      (ht : isTrailingSurrogate unit = false) (hl : isLeadingSurrogate unit = false) :
      Escaped ('u' :: inner) (Char.ofNat unit) rest
  | pair {inner mid rest : List Char} {unit : Nat} {c : Char}
      (hu : readHex inner = .ok (unit, mid)) (ht : isTrailingSurrogate unit = false)
      (hl : isLeadingSurrogate unit = true) (hm : readTrailing unit mid = .ok (c, rest)) :
      Escaped ('u' :: inner) c rest
  | short {c d : Char} {rest : List Char} (hd : d ≠ 'u') (hs : shortEscape? d = some c) :
      Escaped (d :: rest) c rest

theorem escaped_of_readEscape {text rest : List Char} {c : Char}
    (h : readEscape text = .ok (c, rest)) : Escaped text c rest := by
  cases text with
  | nil => simp [readEscape] at h
  | cons d inner =>
    simp only [readEscape] at h
    split at h
    · rename_i hd
      subst hd
      obtain ⟨⟨unit, mid⟩, hu, h⟩ := bind_ok_iff.mp h
      dsimp only at h
      split at h
      · simp at h
      rename_i ht
      split at h
      · rename_i hl
        exact .pair hu (by simpa using ht) hl h
      · rename_i hl
        simp only [Except.ok.injEq, Prod.mk.injEq] at h
        obtain ⟨rfl, rfl⟩ := h
        exact .unit hu (by simpa using ht) (by simpa using hl)
    · rename_i hd
      split at h
      · rename_i hs
        simp only [Except.ok.injEq, Prod.mk.injEq] at h
        obtain ⟨rfl, rfl⟩ := h
        exact .short hd hs
      · simp at h

theorem Escaped.append {text rest : List Char} {c : Char} (h : Escaped text c rest)
    (more : List Char) : readEscape (text ++ more) = .ok (c, rest ++ more) := by
  cases h with
  | unit hu ht hl =>
    simp [readEscape, readUnit, readHex_append hu, ht, hl]
  | pair hu ht hl hm =>
    simp [readEscape, readUnit, readHex_append hu, ht, hl, readTrailing_append hm]
  | short hd hs => simp [readEscape, hd, hs]

theorem Escaped.length_lt {text rest : List Char} {c : Char} (h : Escaped text c rest) :
    rest.length < text.length := by
  cases h with
  | unit hu _ _ =>
    have := length_of_readHex hu
    simp only [List.length_cons]
    omega
  | pair hu _ _ hm =>
    have := length_of_readHex hu
    obtain ⟨inner, unit, rfl, hi, -⟩ := readTrailing_ok hm
    have := length_of_readHex hi
    simp only [List.length_cons] at *
    omega
  | short _ _ => simp

/-- A pair of surrogates is passed over as two escapes. -/
theorem Escaped.skip {text rest : List Char} {c : Char} (h : Escaped text c rest) :
    skipEscape text = .ok rest ∨
      ∃ inner, skipEscape text = .ok ('\\' :: inner) ∧ skipEscape inner = .ok rest := by
  cases h with
  | unit hu _ _ => exact .inl (by simp [skipEscape, hu])
  | pair hu _ _ hm =>
    obtain ⟨inner, unit, rfl, hi, -⟩ := readTrailing_ok hm
    exact .inr ⟨'u' :: inner, by simp [skipEscape, hu], by simp [skipEscape, hi]⟩
  | short hd hs => exact .inl (by simp [skipEscape, hd, hs])

/-! ## Literals -/

/-- One round of the loop: the closing quote, an escape or a plain character. -/
theorem readLoop_ok {count : Nat} {text rest chars : List Char}
    (h : readLoop (count + 1) text = .ok (chars, rest)) :
    (chars = [] ∧ text = '"' :: rest) ∨
    (∃ inner d mid tail, text = '\\' :: inner ∧ Escaped inner d mid ∧
      readLoop count mid = .ok (tail, rest) ∧ chars = d :: tail) ∨
    (∃ c inner tail, text = c :: inner ∧ c ≠ '"' ∧ c ≠ '\\' ∧ isControl c = false ∧
      readLoop count inner = .ok (tail, rest) ∧ chars = c :: tail) := by
  cases text with
  | nil => simp [readLoop] at h
  | cons c inner =>
    simp only [readLoop] at h
    split at h
    · rename_i hc
      simp only [Except.ok.injEq, Prod.mk.injEq] at h
      exact .inl ⟨h.1.symm, by rw [hc, h.2]⟩
    rename_i hq
    split at h
    · rename_i hc
      obtain ⟨⟨d, mid⟩, hd, h⟩ := bind_ok_iff.mp h
      obtain ⟨⟨tail, rest'⟩, ht, h⟩ := bind_ok_iff.mp h
      simp only [Except.ok.injEq, Prod.mk.injEq] at h
      obtain ⟨rfl, rfl⟩ := h
      exact .inr (.inl ⟨inner, d, mid, tail, by rw [hc], escaped_of_readEscape hd, ht, rfl⟩)
    rename_i hb
    split at h
    · simp at h
    · rename_i hctl
      obtain ⟨⟨tail, rest'⟩, ht, h⟩ := bind_ok_iff.mp h
      simp only [Except.ok.injEq, Prod.mk.injEq] at h
      obtain ⟨rfl, rfl⟩ := h
      exact .inr (.inr ⟨c, inner, tail, rfl, hq, hb, by simpa using hctl, ht, rfl⟩)

theorem readLoop_append {count : Nat} {text rest chars : List Char}
    (h : readLoop count text = .ok (chars, rest)) {count' : Nat} (hc : count ≤ count')
    (more : List Char) : readLoop count' (text ++ more) = .ok (chars, rest ++ more) := by
  induction count generalizing text chars count' with
  | zero => simp [readLoop] at h
  | succ count ih =>
    obtain ⟨count', rfl⟩ : ∃ n, count' = n + 1 := ⟨count' - 1, by omega⟩
    have hc : count ≤ count' := by omega
    obtain ⟨rfl, rfl⟩ | ⟨inner, d, mid, tail, rfl, hd, ht, rfl⟩ |
      ⟨c, inner, tail, rfl, hq, hb, hctl, ht, rfl⟩ := readLoop_ok h
    · simp [readLoop]
    · simp [readLoop, hd.append, ih ht hc]
    · simp [readLoop, hq, hb, hctl, ih ht hc]

theorem readLoop_length {count : Nat} {text rest chars : List Char}
    (h : readLoop count text = .ok (chars, rest)) : rest.length < text.length := by
  induction count generalizing text chars with
  | zero => simp [readLoop] at h
  | succ count ih =>
    obtain ⟨rfl, rfl⟩ | ⟨inner, d, mid, tail, rfl, hd, ht, rfl⟩ |
      ⟨c, inner, tail, rfl, hq, hb, hctl, ht, rfl⟩ := readLoop_ok h
    · simp
    · have := ih ht
      have := hd.length_lt
      simp only [List.length_cons]
      omega
    · have := ih ht
      simp only [List.length_cons]
      omega

theorem skipLoop_of_readLoop {count : Nat} {text rest chars : List Char}
    (h : readLoop count text = .ok (chars, rest)) {count' : Nat} (hc : text.length ≤ count') :
    skipLoop count' text = .ok rest := by
  induction count generalizing text chars count' with
  | zero => simp [readLoop] at h
  | succ count ih =>
    obtain ⟨rfl, rfl⟩ | ⟨inner, d, mid, tail, rfl, hd, ht, rfl⟩ |
      ⟨c, inner, tail, rfl, hq, hb, hctl, ht, rfl⟩ := readLoop_ok h
    · obtain ⟨count', rfl⟩ : ∃ n, count' = n + 1 := ⟨count' - 1, by simp at hc; omega⟩
      simp [skipLoop]
    · have := hd.length_lt
      simp only [List.length_cons] at hc
      obtain ⟨count', rfl⟩ : ∃ n, count' = n + 1 := ⟨count' - 1, by omega⟩
      rcases hd.skip with hs | ⟨inner', hs, hs'⟩
      · simp [skipLoop, hs, ih ht (by omega : mid.length ≤ count')]
      · obtain ⟨count', rfl⟩ : ∃ n, count' = n + 1 := ⟨count' - 1, by omega⟩
        simp [skipLoop, hs, hs', ih ht (by omega : mid.length ≤ count')]
    · simp only [List.length_cons] at hc
      obtain ⟨count', rfl⟩ : ∃ n, count' = n + 1 := ⟨count' - 1, by omega⟩
      simp [skipLoop, hq, hb, hctl, ih ht (by omega : inner.length ≤ count')]

theorem read_ok_iff {text rest : List Char} {s : String} :
    read text = .ok (s, rest) ↔ readLoop text.length text = .ok (s.toList, rest) := by
  simp only [read, bind_ok_iff, Prod.exists, Except.ok.injEq, Prod.mk.injEq]
  constructor
  · rintro ⟨chars, _, h, rfl, rfl⟩
    simpa using h
  · intro h
    exact ⟨s.toList, rest, h, by simp, rfl⟩

theorem read_append {text rest : List Char} {s : String} (h : read text = .ok (s, rest))
    (more : List Char) : read (text ++ more) = .ok (s, rest ++ more) :=
  read_ok_iff.mpr (readLoop_append (read_ok_iff.mp h) (by simp) more)

theorem length_of_read {text rest : List Char} {s : String} (h : read text = .ok (s, rest)) :
    rest.length < text.length :=
  readLoop_length (read_ok_iff.mp h)

theorem skip_of_read {text rest : List Char} {s : String} (h : read text = .ok (s, rest)) :
    skip text = .ok rest :=
  skipLoop_of_readLoop (read_ok_iff.mp h) (Nat.le_refl _)

/-! ## The text of a literal -/

theorem readHex_piece {text rest : List Char} {n : Nat} (h : readHex text = .ok (n, rest)) :
    ∃ piece, text = piece ++ rest ∧ ∀ more, readHex (piece ++ more) = .ok (n, more) := by
  obtain ⟨a, b, c, d, a', b', c', d', rfl, ha, hb, hc, hd, rfl⟩ := readHex_ok_iff.mp h
  exact ⟨[a, b, c, d], rfl, fun more => by simp [readHex, ha, hb, hc, hd]⟩

theorem Escaped.piece {text rest : List Char} {c : Char} (h : Escaped text c rest) :
    ∃ piece, text = piece ++ rest ∧ ∀ more, readEscape (piece ++ more) = .ok (c, more) := by
  cases h with
  | unit hu ht hl =>
    obtain ⟨piece, rfl, hpiece⟩ := readHex_piece hu
    refine ⟨'u' :: piece, rfl, fun more => ?_⟩
    show readUnit (piece ++ more) = _
    simp [readUnit, hpiece, ht, hl]
  | pair hu ht hl hm =>
    obtain ⟨inner, unit, rfl, hi, hs, hc⟩ := readTrailing_ok hm
    obtain ⟨first, rfl, hfirst⟩ := readHex_piece hu
    obtain ⟨second, rfl, hsecond⟩ := readHex_piece hi
    refine ⟨'u' :: (first ++ '\\' :: 'u' :: second), by simp, fun more => ?_⟩
    rw [List.cons_append, List.append_assoc]
    show readUnit (first ++ '\\' :: 'u' :: (second ++ more)) = _
    simp [readUnit, hfirst, ht, hl, readTrailing_pair, hsecond, hs, hc]
  | @short c d _ hd hs => exact ⟨[d], rfl, fun more => by simp [readEscape, hd, hs]⟩

theorem readLoop_piece {count : Nat} {text rest chars : List Char}
    (h : readLoop count text = .ok (chars, rest)) :
    ∃ piece, text = piece ++ rest ∧ ∀ more count', piece.length ≤ count' →
      readLoop count' (piece ++ more) = .ok (chars, more) := by
  induction count generalizing text chars with
  | zero => simp [readLoop] at h
  | succ count ih =>
    obtain ⟨rfl, rfl⟩ | ⟨inner, d, mid, tail, rfl, hd, ht, rfl⟩ |
      ⟨c, inner, tail, rfl, hq, hb, hctl, ht, rfl⟩ := readLoop_ok h
    · refine ⟨['"'], rfl, fun more count' hc => ?_⟩
      obtain ⟨count', rfl⟩ : ∃ n, count' = n + 1 := ⟨count' - 1, by simp at hc; omega⟩
      simp [readLoop]
    · obtain ⟨escape, rfl, hescape⟩ := hd.piece
      obtain ⟨piece, rfl, hpiece⟩ := ih ht
      refine ⟨'\\' :: (escape ++ piece), by simp, fun more count' hc => ?_⟩
      simp only [List.length_cons, List.length_append] at hc
      obtain ⟨count', rfl⟩ : ∃ n, count' = n + 1 := ⟨count' - 1, by omega⟩
      simp [readLoop, hescape, hpiece more count' (by omega)]
    · obtain ⟨piece, rfl, hpiece⟩ := ih ht
      refine ⟨c :: piece, rfl, fun more count' hc => ?_⟩
      simp only [List.length_cons] at hc
      obtain ⟨count', rfl⟩ : ∃ n, count' = n + 1 := ⟨count' - 1, by omega⟩
      simp [readLoop, hq, hb, hctl, hpiece more count' (by omega)]

/-- What is read is read from the text up to the closing quote, whatever comes after. -/
theorem read_piece {text rest : List Char} {s : String} (h : read text = .ok (s, rest)) :
    ∃ piece, text = piece ++ rest ∧ ∀ more, read (piece ++ more) = .ok (s, more) := by
  obtain ⟨piece, rfl, hpiece⟩ := readLoop_piece (read_ok_iff.mp h)
  exact ⟨piece, rfl, fun more => read_ok_iff.mpr (hpiece more _ (by simp))⟩

theorem skipEscape_piece {text rest : List Char} (h : skipEscape text = .ok rest) :
    ∃ piece, text = piece ++ rest ∧ ∀ more, skipEscape (piece ++ more) = .ok more := by
  cases text with
  | nil => simp [skipEscape] at h
  | cons c inner =>
    simp only [skipEscape] at h
    split at h
    · rename_i hc
      obtain ⟨⟨n, mid⟩, hu, h⟩ := bind_ok_iff.mp h
      obtain rfl : mid = rest := by simpa using h
      obtain ⟨piece, rfl, hpiece⟩ := readHex_piece hu
      exact ⟨c :: piece, rfl, fun more => by simp [skipEscape, hc, hpiece]⟩
    · rename_i hc
      split at h
      · rename_i hs
        obtain rfl : inner = rest := by simpa using h
        exact ⟨[c], rfl, fun more => by simp [skipEscape, hc, hs]⟩
      · simp at h

theorem skipLoop_piece {count : Nat} {text rest : List Char} (h : skipLoop count text = .ok rest) :
    ∃ piece, text = piece ++ rest ∧ ∀ more count', piece.length ≤ count' →
      skipLoop count' (piece ++ more) = .ok more := by
  induction count generalizing text with
  | zero => simp [skipLoop] at h
  | succ count ih =>
    cases text with
    | nil => simp [skipLoop] at h
    | cons c inner =>
      simp only [skipLoop] at h
      split at h
      · rename_i hc
        obtain rfl : inner = rest := by simpa using h
        refine ⟨[c], rfl, fun more count' hle => ?_⟩
        obtain ⟨count', rfl⟩ : ∃ n, count' = n + 1 := ⟨count' - 1, by simp at hle; omega⟩
        simp [skipLoop, hc]
      rename_i hq
      split at h
      · rename_i hc
        obtain ⟨mid, he, hmid⟩ := bind_ok_iff.mp h
        obtain ⟨escape, rfl, hescape⟩ := skipEscape_piece he
        obtain ⟨piece, rfl, hpiece⟩ := ih hmid
        refine ⟨c :: (escape ++ piece), by simp, fun more count' hle => ?_⟩
        simp only [List.length_cons, List.length_append] at hle
        obtain ⟨count', rfl⟩ : ∃ n, count' = n + 1 := ⟨count' - 1, by omega⟩
        simp [skipLoop, hc, hescape, hpiece more count' (by omega)]
      rename_i hb
      split at h
      · simp at h
      · rename_i hctl
        obtain ⟨piece, rfl, hpiece⟩ := ih h
        refine ⟨c :: piece, rfl, fun more count' hle => ?_⟩
        simp only [List.length_cons] at hle
        obtain ⟨count', rfl⟩ : ∃ n, count' = n + 1 := ⟨count' - 1, by omega⟩
        simp [skipLoop, hq, hb, hctl, hpiece more count' (by omega)]

theorem skip_piece {text rest : List Char} (h : skip text = .ok rest) :
    ∃ piece, text = piece ++ rest ∧ ∀ more, skip (piece ++ more) = .ok more := by
  obtain ⟨piece, rfl, hpiece⟩ := skipLoop_piece h
  exact ⟨piece, rfl, fun more => hpiece more _ (by simp)⟩

/-! ## Writing -/

theorem toOption_readHex_hexDigits :
    ∀ n, n < 0x20 → (readHex (hexDigits n 4)).toOption = some (n, []) := by
  decide

theorem readHex_hexDigits {n : Nat} (h : n < 0x20) : readHex (hexDigits n 4) = .ok (n, []) := by
  have := toOption_readHex_hexDigits n h
  cases hr : readHex (hexDigits n 4) with
  | error e => simp [hr, Except.toOption] at this
  | ok p => simpa [hr, Except.toOption] using this

theorem readEscape_control {c : Char} (h : isControl c = true) (rest : List Char) :
    readEscape ('u' :: (hexDigits c.toNat 4 ++ rest)) = .ok (c, rest) := by
  have hn : c.toNat < 0x20 := by simpa [isControl] using h
  have hu := readHex_append (readHex_hexDigits hn) rest
  have ht : isTrailingSurrogate c.toNat = false := by simp [isTrailingSurrogate]; omega
  have hl : isLeadingSurrogate c.toNat = false := by simp [isLeadingSurrogate]; omega
  simp [readEscape, readUnit, hu, ht, hl]

theorem readLoop_escape {count : Nat} {inner rest : List Char} {c : Char}
    (h : readEscape inner = .ok (c, rest)) : readLoop (count + 1) ('\\' :: inner) =
      (readLoop count rest).map fun (chars, rest) => (c :: chars, rest) := by
  simp only [readLoop, h, ok_bind]
  cases readLoop count rest <;> rfl

/-- A written character is read back in one round of the loop. -/
theorem readLoop_writeChar (count : Nat) (c : Char) (rest : List Char) :
    readLoop (count + 1) (writeChar c ++ rest) =
      (readLoop count rest).map fun (chars, rest) => (c :: chars, rest) := by
  unfold writeChar
  split
  · subst c; exact readLoop_escape rfl
  split
  · subst c; exact readLoop_escape rfl
  split
  · subst c; exact readLoop_escape rfl
  split
  · subst c; exact readLoop_escape rfl
  split
  · subst c; exact readLoop_escape rfl
  split
  · subst c; exact readLoop_escape rfl
  split
  · subst c; exact readLoop_escape rfl
  split
  · rename_i h
    exact readLoop_escape (readEscape_control h rest)
  · rename_i hq hb _ _ _ _ _ hctl
    simp only [List.cons_append, List.nil_append, readLoop, if_neg hq, if_neg hb, if_neg hctl]
    cases readLoop count rest <;> rfl

theorem readLoop_write {chars : List Char} {count : Nat} (h : chars.length < count)
    (rest : List Char) :
    readLoop count (chars.flatMap writeChar ++ '"' :: rest) = .ok (chars, rest) := by
  induction chars generalizing count with
  | nil =>
    obtain ⟨count, rfl⟩ : ∃ n, count = n + 1 := ⟨count - 1, by simp at h; omega⟩
    simp [readLoop]
  | cons c chars ih =>
    simp only [List.length_cons] at h
    obtain ⟨count, rfl⟩ : ∃ n, count = n + 1 := ⟨count - 1, by omega⟩
    rw [List.flatMap_cons, List.append_assoc, readLoop_writeChar, ih (by omega), map_ok]

theorem writeChar_ne_nil (c : Char) : writeChar c ≠ [] := by
  unfold writeChar
  repeat' split
  all_goals simp

theorem length_le_flatMap_writeChar (chars : List Char) :
    chars.length ≤ (chars.flatMap writeChar).length := by
  induction chars with
  | nil => simp
  | cons c chars ih =>
    have := List.length_pos_iff.mpr (writeChar_ne_nil c)
    simp only [List.flatMap_cons, List.length_append, List.length_cons]
    omega

/-- A written string, from after its opening quote. -/
theorem read_write (s : String) (rest : List Char) :
    read (s.toList.flatMap writeChar ++ '"' :: rest) = .ok (s, rest) := by
  refine read_ok_iff.mpr (readLoop_write ?_ rest)
  have := length_le_flatMap_writeChar s.toList
  simp only [List.length_append, List.length_cons]
  omega

end IcuMessage.Json.StringLiteral
